import Mathlib.Data.List.Nodup
import SoundGraph.Proofs.Settings.Registration

/-! What every catalog made by registrations is like. The builtin generators are put there without a check, but
they would pass it, and they have names of their own; from then on each entry is checked before it is put behind the
others. As no name comes twice, the first entry under a name is the only one, and as entries are neither moved nor
replaced it is found by all later look-ups. -/

namespace SoundGraph

namespace Catalog

/-- The entries are all consistent, and no two have the same name. -/
structure Consistent (c : Catalog) : Prop where
  valid : ∀ g ∈ c.entries.toList, g.descriptor.validate = .ok ()
  distinct : c.names.Nodup

theorem consistent_empty : Catalog.empty.Consistent := ⟨List.forall_mem_nil _, List.nodup_nil⟩

theorem consistent_builtin : Catalog.builtin.Consistent := ⟨by decide, by decide⟩

variable {c c' : Catalog} {g entry : Generator}

theorem Consistent.register (h : c.Consistent) (hok : c.register g = .ok (entry, c')) : c'.Consistent := by
  obtain ⟨hvalid, hfree, rfl, rfl⟩ := register_eq_ok_iff.1 hok
  have hnew : entry.name ∉ c.names := by
    rw [← contains_iff, hfree]
    exact Bool.false_ne_true
  refine ⟨fun g' hg' => ?_, ?_⟩
  · rw [insert, Array.toList_push, List.mem_append, List.mem_singleton] at hg'
    rcases hg' with hg' | rfl
    · exact h.valid g' hg'
    · exact hvalid
  · rw [names, insert, Array.toList_push, List.map_append]
    exact h.distinct.append (List.nodup_singleton _) (List.disjoint_singleton.2 hnew)

/-- Whether it comes to the end of the list or stops before. -/
theorem Consistent.registerEach (h : c.Consistent) (ds : List Descriptor) :
    (Settings.registerEach c ds).2.Consistent := by
  induction ds generalizing c with
  | nil => exact h
  | cons d ds ih =>
    unfold Settings.registerEach
    split
    · next entry c' hok => exact ih (h.register hok)
    · exact h
    · exact h

end Catalog

namespace Settings

open Catalog

/-- Registration of the entries changes nothing, or it goes through one by one. -/
theorem register_cases (s : Settings) (c : Catalog) :
    (∃ e, s.register c = (.error e, c)) ∨
      ∃ ds, registerEach c ds = (.ok (), c.append ds) ∧ s.register c = (.ok ds, c.append ds) := by
  cases h : s.descriptors with
  | error e => exact .inl ⟨e, register_of_invalid h⟩
  | ok ds => exact (register_of_descriptors h c).imp_right fun h => ⟨ds, h⟩

end Settings

namespace Catalog

variable {c c' : Catalog} {g entry : Generator} {name : String}

theorem Consistent.perform (h : c.Consistent) (call : Registration) : (c.perform call).Consistent := by
  cases call with
  | generator g =>
    rw [Catalog.perform]
    split
    · next entry c' hok => exact h.register hok
    · exact h
  | entries s =>
    rw [Catalog.perform]
    rcases s.register_cases c with ⟨e, heq⟩ | ⟨ds, heach, heq⟩
    · rw [heq]
      exact h
    · have hall := h.registerEach ds
      rw [heach] at hall
      rwa [heq]

theorem Consistent.run (h : c.Consistent) (calls : List Registration) : (c.run calls).Consistent := by
  induction calls generalizing c with
  | nil => exact h
  | cons call calls ih => exact ih (h.perform call)

/-- What is found under a name is the one entry that has it. -/
theorem Consistent.find?_of_mem (h : c.Consistent) (hg : g ∈ c.entries.toList) : c.find? g.name = some g := by
  obtain ⟨g', hfound⟩ := Option.isSome_iff_exists.1 (contains_of_mem hg)
  rw [find?, ← Array.find?_toList] at hfound
  have hname : g'.name = g.name := by simpa using List.find?_some hfound
  rw [find?, ← Array.find?_toList, hfound]
  exact congrArg some (List.inj_on_of_nodup_map h.distinct (List.mem_of_find?_eq_some hfound) hg hname)

/-- An entry is found whatever is registered after it. -/
theorem Consistent.find?_run (h : c.Consistent) (hg : g ∈ c.entries.toList) (calls : List Registration) :
    (c.run calls).find? g.name = some g :=
  find?_mono (prefix_run c calls) (h.find?_of_mem hg)

/-- Catalogs made by registrations, from the builtin one or from nothing. All entries are consistent and named apart.
A registration that succeeds puts one entry behind the others and answers with the one that is found under its
name from then on, and the entries of settings go there all together, one for each. A call that fails changes
nothing, and none changes what is found under a name that is taken, nor the order of the earlier entries. -/
theorem run_consistent {start : Catalog} (hstart : start = .builtin ∨ start = .empty) (calls : List Registration) :
    let c := start.run calls
    (∀ g ∈ c.entries.toList, g.descriptor.validate = .ok ()) ∧
      c.names.Nodup ∧
      (∀ g entry c', c.register g = .ok (entry, c') →
        c.perform (.generator g) = c' ∧ c'.entries = c.entries.push entry ∧ entry = g ∧
          ∀ more, (c'.run more).find? entry.name = some entry) ∧
      (∀ s ds, (s.register c).1 = .ok ds →
        (c.perform (.entries s)).entries = c.entries ++ (ds.map (Generator.mk · none)).toArray ∧
          ∀ d ∈ ds, ∀ more, ((c.perform (.entries s)).run more).find? d.name = some ⟨d, none⟩) ∧
      (∀ g e, c.register g = .error e → c.perform (.generator g) = c) ∧
      (∀ s e, (s.register c).1 = .error e → c.perform (.entries s) = c) ∧
      ∀ more, c.entries.toList <+: (c.run more).entries.toList ∧
        ∀ name g, c.find? name = some g → (c.run more).find? name = some g := by
  intro c
  have hc : c.Consistent := by
    rcases hstart with rfl | rfl
    · exact consistent_builtin.run calls
    · exact consistent_empty.run calls
  refine ⟨hc.valid, hc.distinct, fun g entry c' hok => ?_, fun s ds hok => ?_, fun g e herror => ?_,
    fun s e herror => ?_, fun more => ⟨prefix_run c more, fun name g => find?_mono (prefix_run c more)⟩⟩
  · have hc' := hc.register hok
    have hperform : c.perform (.generator g) = c' := by rw [Catalog.perform, hok]
    obtain ⟨-, -, rfl, rfl⟩ := register_eq_ok_iff.1 hok
    refine ⟨hperform, rfl, rfl, fun more => hc'.find?_run ?_ more⟩
    rw [insert, Array.toList_push]
    exact List.mem_append_right _ List.mem_cons_self
  · have hc' := hc.perform (.entries s)
    rcases s.register_cases c with ⟨e, heq⟩ | ⟨ds', -, heq⟩
    · rw [heq] at hok
      cases hok
    · rw [heq] at hok
      cases hok
      have hperform : c.perform (.entries s) = c.append ds := by rw [Catalog.perform, heq]
      rw [hperform] at hc' ⊢
      refine ⟨rfl, fun d hd more => hc'.find?_run (g := ⟨d, none⟩) ?_ more⟩
      rw [append, Array.toList_append]
      exact List.mem_append_right _ (List.mem_map_of_mem hd)
  · rw [Catalog.perform, herror]
  · rcases s.register_cases c with ⟨e', heq⟩ | ⟨ds, -, heq⟩
    · rw [Catalog.perform, heq]
    · rw [heq] at herror
      cases herror

def crush : Generator := ⟨{ name := "Crush", rate := .fixed .audio, inputs := [⟨"in", .matchAudio, false⟩] }, none⟩

def attempts : List Registration :=
  [.generator crush, .entries Settings.clashing, .entries Settings.fresh, .generator crush]

theorem run_consistent_attempts :
    (Catalog.builtin = .builtin ∨ Catalog.builtin = .empty) ∧
      (Catalog.builtin.run attempts).names = Catalog.builtin.names ++ ["Crush", "Blip", "Blop"] ∧
      (Catalog.builtin.run attempts).names.Nodup ∧
      ∀ more, ((Catalog.builtin.run attempts).run more).find? "Crush" = some crush := by
  obtain ⟨-, hdistinct, -, -, -, -, hlater⟩ := run_consistent (.inl rfl) attempts
  have hfound : (Catalog.builtin.run attempts).find? "Crush" = some crush := rfl
  exact ⟨.inl rfl, rfl, hdistinct, fun more => (hlater more).2 "Crush" crush hfound⟩

end Catalog

end SoundGraph
