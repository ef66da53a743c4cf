import SoundGraph.Proofs.Success
import SoundGraph.Settings

/-! Runs of registrations. A catalog grows at its end only, whether a registration succeeds, fails or stops
halfway. So what a name is found as stays, and a name that is taken stays taken. -/

namespace SoundGraph

inductive Registration where
  | generator (g : Generator)
  /-- The user-defined generators of the settings. -/
  | entries (s : Settings)

namespace Catalog

def perform (c : Catalog) : Registration → Catalog
  | .generator g =>
    match c.register g with
    | .ok (_, c') => c'
    | .error _ => c
  | .entries s => (s.register c).2

def run (c : Catalog) (calls : List Registration) : Catalog := calls.foldl perform c

variable {c c' : Catalog} {g entry : Generator} {name : String}

theorem register_eq_ok_iff :
    c.register g = .ok (entry, c') ↔
      g.descriptor.validate = .ok () ∧ c.contains g.name = false ∧ entry = g ∧ c' = c.insert g := by
  unfold register
  rw [bind_eq_ok_iff]
  simp only [mapError_eq_ok_iff]
  refine ⟨?_, ?_⟩
  · rintro ⟨⟨⟩, hvalid, h⟩
    split at h
    · cases h
    · next hfree =>
      cases h
      exact ⟨hvalid, Bool.eq_false_iff.2 hfree, rfl, rfl⟩
  · rintro ⟨hvalid, hfree, rfl, rfl⟩
    refine ⟨(), hvalid, ?_⟩
    rw [hfree]
    rfl

theorem prefix_of_register (h : c.register g = .ok (entry, c')) : c.entries.toList <+: c'.entries.toList := by
  obtain ⟨-, -, rfl, rfl⟩ := register_eq_ok_iff.1 h
  rw [insert, Array.toList_push]
  exact List.prefix_append _ _

/-- Descriptors that were registered before one is refused stay. -/
theorem prefix_registerEach (c : Catalog) (ds : List Descriptor) :
    c.entries.toList <+: (Settings.registerEach c ds).2.entries.toList := by
  induction ds generalizing c with
  | nil => exact List.prefix_refl _
  | cons d ds ih =>
    unfold Settings.registerEach
    split
    · next _ c' hok => exact (prefix_of_register hok).trans (ih c')
    · exact List.prefix_refl _
    · exact List.prefix_refl _

theorem prefix_settings (c : Catalog) (s : Settings) : c.entries.toList <+: (s.register c).2.entries.toList := by
  unfold Settings.register
  split
  · exact List.prefix_refl _
  · next ds _ =>
    split
    · exact List.prefix_refl _
    · have hgrown := prefix_registerEach c ds
      split <;> next heq => rwa [heq] at hgrown

theorem prefix_perform (c : Catalog) (call : Registration) :
    c.entries.toList <+: (c.perform call).entries.toList := by
  cases call with
  | generator g =>
    rw [perform]
    split
    · next _ c' hok => exact prefix_of_register hok
    · exact List.prefix_refl _
  | entries s => exact prefix_settings c s

theorem prefix_run (c : Catalog) (calls : List Registration) :
    c.entries.toList <+: (c.run calls).entries.toList := by
  induction calls generalizing c with
  | nil => exact List.prefix_refl _
  | cons call calls ih => exact (prefix_perform c call).trans (ih _)

/-- The first entry of a name stays the first. -/
theorem find?_mono (h : c.entries.toList <+: c'.entries.toList) (hfound : c.find? name = some g) :
    c'.find? name = some g := by
  obtain ⟨new, hnew⟩ := h
  rw [find?, ← Array.find?_toList] at hfound ⊢
  rw [← hnew, List.find?_append, hfound, Option.some_or]

theorem contains_mono (h : c.entries.toList <+: c'.entries.toList) (htaken : c.contains name = true) :
    c'.contains name = true := by
  obtain ⟨g, hfound⟩ := Option.isSome_iff_exists.1 htaken
  rw [contains, find?_mono h hfound, Option.isSome_some]

theorem contains_iff : c.contains name = true ↔ name ∈ c.names := by
  rw [contains, find?, ← Array.find?_toList, List.find?_isSome, names, List.mem_map]
  simp only [decide_eq_true_eq]

theorem contains_of_mem (h : g ∈ c.entries.toList) : c.contains g.name = true :=
  contains_iff.2 (List.mem_map_of_mem h)

end Catalog

end SoundGraph
