import SoundGraph.Catalog.Builtin
import SoundGraph.Proofs.Catalog.Registration

/-! Registering the entries of settings. Registration goes one descriptor at a time and cannot take one
back, so what makes it all or nothing is the check in front of it: descriptors that are consistent, named
apart, and named unlike anything in the catalog are each accepted in turn. -/

namespace SoundGraph

theorem Descriptor.validate_eq_ok_iff {d : Descriptor} : d.validate = .ok () ↔ d.check = .ok () :=
  mapError_eq_ok_iff

namespace Entry

variable {e : Entry} {d : Descriptor}

theorem describe_eq_ok (h : e.describe = .ok d) : d.name = e.name ∧ d.check = .ok () := by
  obtain ⟨rate, -, h⟩ := bind_eq_ok_iff.1 h
  obtain ⟨rates, -, h⟩ := bind_eq_ok_iff.1 h
  obtain ⟨⟨⟩, hcheck, h⟩ := bind_eq_ok_iff.1 h
  cases h
  exact ⟨rfl, mapError_eq_ok_iff.1 hcheck⟩

theorem toDescriptor_eq_ok (h : e.toDescriptor = .ok d) : d.name = e.name ∧ d.check = .ok () :=
  describe_eq_ok (mapError_eq_ok_iff.1 h)

end Entry

namespace Settings

/-- The entries have descriptors, one each, and no two of them share a name. -/
theorem entryDescriptors_eq_ok_iff {seen : List String} {es : List Entry} {ds : List Descriptor} :
    entryDescriptors seen es = .ok ds ↔
      List.Forall₂ (fun e d => e.toDescriptor = .ok d) es ds ∧ (es.map Entry.name).Nodup ∧
        ∀ e ∈ es, e.name ∉ seen := by
  induction es generalizing seen ds with
  | nil => cases ds <;> simp [entryDescriptors]
  | cons e es ih =>
    rw [entryDescriptors]
    by_cases hseen : seen.contains e.name = true
    · rw [if_pos hseen]
      refine ⟨?_, ?_⟩
      · intro h
        cases h
      · intro h
        exact absurd (List.contains_iff_mem.1 hseen) (h.2.2 e List.mem_cons_self)
    · rw [if_neg hseen, bind_eq_ok_iff]
      have hfresh : e.name ∉ seen := fun h => hseen (List.contains_iff_mem.2 h)
      refine ⟨?_, ?_⟩
      · rintro ⟨d, hd, h⟩
        obtain ⟨ds', hds, h⟩ := bind_eq_ok_iff.1 h
        cases h
        obtain ⟨hall, hnodup, hrest⟩ := ih.1 hds
        refine ⟨.cons hd hall, List.nodup_cons.2 ⟨?_, hnodup⟩, List.forall_mem_cons.2 ⟨hfresh, ?_⟩⟩
        · intro hmem
          obtain ⟨e', he', heq⟩ := List.mem_map.1 hmem
          exact hrest e' he' (heq ▸ List.mem_cons_self)
        · exact fun e' he' hmem => hrest e' he' (List.mem_cons_of_mem _ hmem)
      · rintro ⟨hall, hnodup, hrest⟩
        obtain ⟨hhead, hnodup⟩ := List.nodup_cons.1 hnodup
        obtain ⟨-, hrest⟩ := List.forall_mem_cons.1 hrest
        cases hall with
        | @cons _ d _ ds' hd hall =>
          refine ⟨d, hd, bind_eq_ok_iff.2 ⟨ds', ih.2 ⟨hall, hnodup, ?_⟩, rfl⟩⟩
          intro e' he' hmem
          rcases List.mem_cons.1 hmem with heq | hmem
          · exact hhead (List.mem_map.2 ⟨e', he', heq⟩)
          · exact hrest e' he' hmem

variable {s : Settings} {ds : List Descriptor}

theorem descriptors_eq_ok_iff :
    s.descriptors = .ok ds ↔
      s.maxNodes ≠ 0 ∧ List.Forall₂ (fun e d => e.toDescriptor = .ok d) s.entries ds ∧
        (s.entries.map Entry.name).Nodup := by
  rw [descriptors]
  by_cases h : s.maxNodes = 0
  · simp [h]
  · rw [if_neg h, entryDescriptors_eq_ok_iff]
    simp [h]

theorem validate_eq_ok_iff : s.validate = .ok () ↔ ∃ ds, s.descriptors = .ok ds := by
  unfold validate
  cases s.descriptors with
  | ok ds => exact ⟨fun _ => ⟨ds, rfl⟩, fun _ => rfl⟩
  | error e => simp [discard, Functor.mapConst, Except.map]

theorem names_of_forall₂ {es : List Entry} (h : List.Forall₂ (fun e d => e.toDescriptor = .ok d) es ds) :
    ds.map Descriptor.name = es.map Entry.name := by
  induction h with
  | nil => rfl
  | cons hd _ ih => rw [List.map_cons, List.map_cons, ih, (Entry.toDescriptor_eq_ok hd).1]

end Settings

namespace Catalog

def append (c : Catalog) (ds : List Descriptor) : Catalog :=
  { entries := c.entries ++ (ds.map (Generator.mk · none)).toArray }

variable {c : Catalog} {d : Descriptor} {ds : List Descriptor} {name : String}

theorem prefix_append (c : Catalog) (ds : List Descriptor) :
    c.entries.toList <+: (c.append ds).entries.toList := by
  rw [append, Array.toList_append]
  exact List.prefix_append _ _

theorem append_cons : (c.insert { descriptor := d }).append ds = c.append (d :: ds) := by
  simp [append, insert]

theorem contains_insert {g : Generator} :
    (c.insert g).contains name = (c.contains name || decide (g.name = name)) := by
  rw [contains, contains, find?, find?, insert, ← Array.find?_toList, ← Array.find?_toList, Array.toList_push,
    List.find?_append, Option.isSome_or]
  by_cases h : g.name = name <;> simp [h]

theorem find?_append (hname : ∀ d ∈ ds, d.name ≠ name) : (c.append ds).find? name = c.find? name := by
  have hnone : (ds.map (Generator.mk · none)).find? (·.name = name) = none := by
    refine List.find?_eq_none.2 (List.forall_mem_map.2 fun d hd => ?_)
    rw [decide_eq_true_eq]
    exact hname d hd
  rw [find?, find?, append, ← Array.find?_toList, ← Array.find?_toList, Array.toList_append,
    List.find?_append, hnone, Option.or_none]

/-- Consistent descriptors with names of their own are all accepted. By induction on those that are left. -/
theorem registerEach_eq (hcheck : ∀ d ∈ ds, d.check = .ok ()) (hnodup : (ds.map Descriptor.name).Nodup)
    (hfree : ∀ d ∈ ds, c.contains d.name = false) :
    Settings.registerEach c ds = (.ok (), c.append ds) := by
  induction ds generalizing c with
  | nil => simp [Settings.registerEach, append]
  | cons d ds ih =>
    obtain ⟨hd, hcheck⟩ := List.forall_mem_cons.1 hcheck
    obtain ⟨hfresh, hfree⟩ := List.forall_mem_cons.1 hfree
    obtain ⟨hhead, hnodup⟩ := List.nodup_cons.1 hnodup
    have hregister : c.register { descriptor := d } = .ok ({ descriptor := d }, c.insert { descriptor := d }) :=
      register_eq_ok_iff.2 ⟨Descriptor.validate_eq_ok_iff.2 hd, hfresh, rfl, rfl⟩
    have hrest : ∀ d' ∈ ds, (c.insert { descriptor := d }).contains d'.name = false := by
      intro d' hd'
      have hne : d.name ≠ d'.name := fun heq => hhead (List.mem_map.2 ⟨d', hd', heq.symm⟩)
      rw [contains_insert, hfree d' hd', Bool.false_or]
      exact decide_eq_false hne
    simp only [Settings.registerEach, hregister]
    rw [ih hcheck hnodup hrest, append_cons]

end Catalog

namespace Settings

variable {s : Settings} {c : Catalog} {ds : List Descriptor}

theorem registerEach_descriptors (h : s.descriptors = .ok ds) (hfree : ∀ d ∈ ds, c.contains d.name = false) :
    registerEach c ds = (.ok (), c.append ds) := by
  obtain ⟨-, hall, hnodup⟩ := descriptors_eq_ok_iff.1 h
  refine Catalog.registerEach_eq (fun d hd => ?_) (by rwa [names_of_forall₂ hall]) hfree
  obtain ⟨e, -, he⟩ := exists_left_of_forall₂ hall hd
  exact (Entry.toDescriptor_eq_ok he).2

/-- A name of the entries is taken just if the name of a descriptor is. -/
theorem forall_free_iff {es : List Entry} (hall : List.Forall₂ (fun e d => e.toDescriptor = .ok d) es ds) :
    (∀ d ∈ ds, c.contains d.name = false) ↔ ∀ e ∈ es, c.contains e.name = false := by
  have hds : (∀ name ∈ ds.map Descriptor.name, c.contains name = false) ↔ ∀ d ∈ ds, c.contains d.name = false :=
    List.forall_mem_map
  rw [← hds, names_of_forall₂ hall, List.forall_mem_map]

theorem register_of_free (h : s.descriptors = .ok ds) (hfree : ∀ d ∈ ds, c.contains d.name = false) :
    s.register c = (.ok ds, c.append ds) := by
  have hfind : (ds.find? fun d => c.contains d.name) = none :=
    List.find?_eq_none.2 fun d hd => by rw [hfree d hd]; exact Bool.false_ne_true
  simp only [register, h, hfind, registerEach_descriptors h hfree]

theorem register_of_taken (h : s.descriptors = .ok ds) {d : Descriptor} (hd : d ∈ ds)
    (htaken : c.contains d.name = true) : ∃ e, s.register c = (.error e, c) := by
  have hsome : (ds.find? fun d => c.contains d.name).isSome := List.find?_isSome.2 ⟨d, hd, htaken⟩
  obtain ⟨taken, hfind⟩ := Option.isSome_iff_exists.1 hsome
  exact ⟨.duplicateEntry taken.name, by simp only [register, h, hfind]⟩

/-- Consistent entries are registered one by one, unless a name is taken. -/
theorem register_of_descriptors (h : s.descriptors = .ok ds) (c : Catalog) :
    (∃ e, s.register c = (.error e, c)) ∨
      registerEach c ds = (.ok (), c.append ds) ∧ s.register c = (.ok ds, c.append ds) := by
  by_cases hfree : ∀ d ∈ ds, c.contains d.name = false
  · exact .inr ⟨registerEach_descriptors h hfree, register_of_free h hfree⟩
  · obtain ⟨d, hd, htaken⟩ : ∃ d ∈ ds, c.contains d.name = true := by simpa using hfree
    exact .inl (register_of_taken h hd htaken)

theorem register_of_invalid {e : SettingsError} (h : s.descriptors = .error e) :
    s.register c = (.error e, c) := by
  simp only [register, h]

/-- Either nothing is registered and the catalog is as it was, or every entry is: its descriptor stands behind
the generators that were there, in the order of the entries, and what was found before is found as before.
The second is the case just if the settings are consistent and no entry has a name that is taken. Then the
catalog accepts one descriptor after the other. -/
theorem register_all_or_none (s : Settings) (c : Catalog) :
    ((∃ e, s.register c = (.error e, c)) ∨
        ∃ ds, s.register c = (.ok ds, c.append ds) ∧
          List.Forall₂ (fun e d => e.toDescriptor = .ok d) s.entries ds ∧
          (∀ name g, c.find? name = some g → (c.append ds).find? name = some g) ∧
          ∀ name, (∀ e ∈ s.entries, e.name ≠ name) → (c.append ds).find? name = c.find? name) ∧
      ((∃ ds, (s.register c).1 = .ok ds) ↔
        s.validate = .ok () ∧ ∀ e ∈ s.entries, c.contains e.name = false) ∧
      ∀ ds, s.descriptors = .ok ds → (∀ d ∈ ds, c.contains d.name = false) →
        (registerEach c ds).1 = .ok () := by
  refine ⟨?_, ?_, fun ds h hfree => by rw [registerEach_descriptors h hfree]⟩
  · cases h : s.descriptors with
    | error e => exact .inl ⟨e, register_of_invalid h⟩
    | ok ds =>
      by_cases hfree : ∀ d ∈ ds, c.contains d.name = false
      · obtain ⟨-, hall, -⟩ := descriptors_eq_ok_iff.1 h
        refine .inr ⟨ds, register_of_free h hfree, hall, fun name g hg => ?_, fun name hname => ?_⟩
        · exact Catalog.find?_mono (Catalog.prefix_append c ds) hg
        · refine Catalog.find?_append fun d hd => ?_
          obtain ⟨e, he, heq⟩ := exists_left_of_forall₂ hall hd
          rw [(Entry.toDescriptor_eq_ok heq).1]
          exact hname e he
      · obtain ⟨d, hd, htaken⟩ : ∃ d ∈ ds, c.contains d.name = true := by simpa using hfree
        exact .inl (register_of_taken h hd htaken)
  · cases h : s.descriptors with
    | error e => simp [register_of_invalid h, validate_eq_ok_iff, h]
    | ok ds =>
      obtain ⟨-, hall, -⟩ := descriptors_eq_ok_iff.1 h
      rw [← forall_free_iff hall, validate_eq_ok_iff]
      refine ⟨?_, ?_⟩
      · rintro ⟨ds', hok⟩
        refine ⟨⟨ds, h⟩, fun d hd => ?_⟩
        by_contra hne
        have htaken : c.contains d.name = true := by simpa using hne
        obtain ⟨e, herr⟩ := register_of_taken h hd htaken
        rw [herr] at hok
        cases hok
      · rintro ⟨-, hfree⟩
        exact ⟨ds, by rw [register_of_free h hfree]⟩

def blip : Entry := { name := "Blip", rate := .maybe, inputs := [{ name := "freq" }] }

def fresh : Settings := { entries := [blip, { blip with name := "Blop" }] }

def clashing : Settings := { entries := [blip, { blip with name := "SinOsc" }] }

theorem register_all_or_none_blip :
    (∃ ds, (fresh.register .builtin).1 = .ok ds ∧ ds.map Descriptor.name = ["Blip", "Blop"]) ∧
      clashing.validate = .ok () ∧ ∃ e, clashing.register .builtin = (.error e, .builtin) := by
  refine ⟨?_, by decide, ?_⟩
  · have hfresh := register_all_or_none fresh .builtin
    obtain ⟨ds, hok⟩ := hfresh.2.1.2 ⟨by decide, by decide⟩
    rcases hfresh.1 with ⟨e, herr⟩ | ⟨ds', hok', hall, -⟩
    · rw [herr] at hok
      cases hok
    · exact ⟨ds', by rw [hok'], names_of_forall₂ hall⟩
  · have hclash := register_all_or_none clashing .builtin
    rcases hclash.1 with herr | ⟨ds, hok, -⟩
    · exact herr
    · obtain ⟨-, hfree⟩ := hclash.2.1.1 ⟨ds, by rw [hok]⟩
      have htaken : Catalog.builtin.contains "SinOsc" = true := by decide
      have hnot := hfree { blip with name := "SinOsc" } (by decide)
      rw [htaken] at hnot
      cases hnot

end Settings

end SoundGraph
