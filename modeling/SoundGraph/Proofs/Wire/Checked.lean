import SoundGraph.Proofs.Wire.RoundTrip

/-! Decoders with a catalog. Of the files that can be read they accept those that name only generators in the
catalog, so a larger catalog accepts no less. -/

namespace SoundGraph.Wire

def Knows (catalog : Catalog) (d : Definition) : Prop :=
  ∀ n ∈ d.graph.nodes.toList, catalog.contains n.name = true

theorem checkName_eq_ok_iff {catalog : Catalog} {definition : String} {node : Node × Nat} :
    checkName catalog definition node = .ok () ↔ catalog.contains node.1.name = true := by
  simp [checkName]

theorem forM_checkName_eq_ok_iff {catalog : Catalog} {d : Definition} :
    d.graph.nodes.toList.zipIdx.forM (checkName catalog d.name) = .ok () ↔ Knows catalog d := by
  simp only [forM_eq_ok_iff, checkName_eq_ok_iff]
  refine ⟨fun h n hn => ?_, fun h p hp => h p.1 (List.fst_mem_of_mem_zipIdx hp)⟩
  obtain ⟨i, hi⟩ := List.getElem?_of_mem hn
  exact h (n, i) (List.mem_zipIdx_iff_getElem?.2 hi)

theorem checkNames_eq_ok_iff {catalog : Catalog} {ds : List Definition} :
    checkNames catalog ds = .ok () ↔ ∀ d ∈ ds, Knows catalog d := by
  rw [checkNames, forM_eq_ok_iff]
  exact forall₂_congr fun _ _ => forM_checkName_eq_ok_iff

theorem checkNames_ne_corrupt (catalog : Catalog) (ds : List Definition) (e : Corruption) :
    checkNames catalog ds ≠ .error (.corrupt e) := by
  intro h
  obtain ⟨d, -, h⟩ := exists_of_forM_eq_error h
  obtain ⟨node, -, h⟩ := exists_of_forM_eq_error h
  rw [checkName] at h
  split at h <;> cases h

namespace Decoder

variable {decoder : Decoder} {bytes : List UInt8}

theorem decodeAll_eq_ok_iff {ds : List Definition} :
    decoder.decodeAll bytes = .ok ds ↔
      encodeAll ds = .ok bytes ∧ ∀ catalog, decoder.catalog = some catalog → ∀ d ∈ ds, Knows catalog d := by
  simp only [decodeAll, bind_eq_ok_iff, mapError_eq_ok_iff, readDefinitions_eq_ok_iff]
  refine ⟨?_, ?_⟩
  · rintro ⟨ds', hds, h⟩
    cases hcatalog : decoder.catalog with
    | none =>
      rw [hcatalog] at h
      cases h
      exact ⟨hds, fun catalog heq => by cases heq⟩
    | some catalog =>
      rw [hcatalog] at h
      obtain ⟨⟨⟩, hknown, h⟩ := bind_eq_ok_iff.1 h
      cases h
      refine ⟨hds, fun catalog' heq => ?_⟩
      cases heq
      exact checkNames_eq_ok_iff.1 hknown
  · rintro ⟨hds, hknown⟩
    refine ⟨ds, hds, ?_⟩
    cases hcatalog : decoder.catalog with
    | none => rfl
    | some catalog => exact bind_eq_ok_iff.2 ⟨(), checkNames_eq_ok_iff.2 (hknown catalog hcatalog), rfl⟩

theorem readDefinitions_of_decodeAll {ds : List Definition} (h : decoder.decodeAll bytes = .ok ds) :
    readDefinitions true bytes = .ok ds :=
  readDefinitions_eq_ok_iff.2 (decodeAll_eq_ok_iff.1 h).1

/-- A catalog has no say in what is corrupt. -/
theorem decodeAll_eq_corrupt_iff {e : Corruption} :
    decoder.decodeAll bytes = .error (.corrupt e) ↔ readDefinitions true bytes = .error e := by
  rw [decodeAll, bind_eq_error_iff]
  simp only [mapError_eq_error_iff, mapError_eq_ok_iff]
  refine ⟨?_, fun h => .inl ⟨e, h, rfl⟩⟩
  rintro (⟨e', he, heq⟩ | ⟨ds, -, h⟩)
  · cases heq
    exact he
  · split at h
    · next catalog _ =>
      rcases bind_eq_error_iff.1 h with hnames | ⟨-, -, h⟩
      · exact absurd hnames (checkNames_ne_corrupt catalog ds e)
      · cases h
    · cases h

/-- The only definition of a file is accepted just if it was written to it and the catalog knows its nodes. -/
theorem decode_eq_ok_iff {d : Definition} :
    decoder.decode bytes = .ok d ↔
      encode d = .ok bytes ∧ ∀ catalog, decoder.catalog = some catalog → Knows catalog d := by
  rw [decode, bind_eq_ok_iff]
  refine ⟨?_, ?_⟩
  · rintro ⟨ds, hds, h⟩
    split at h
    · cases h
      simpa [encode] using decodeAll_eq_ok_iff.1 hds
    · cases h
  · rintro ⟨hd, hknows⟩
    exact ⟨[d], decodeAll_eq_ok_iff.2 ⟨hd, by simpa using hknows⟩, rfl⟩

end Decoder

end SoundGraph.Wire
