import SoundGraph.Proofs.Wire.Extension

/-! The early check of counts. A count that asks for more than is left belongs to a table whose entries cannot all
be there, since each takes at least the size that the check allows for. So the reader without the check goes on
for a while and then fails too: the check only makes a failure come earlier, as a truncation. -/

namespace SoundGraph.Wire

/-- The reader `early` does what `late` does, but that it may already stop, for want of bytes, where `late` stops
later on. -/
def Hastens {α : Type} (early late : Read α) : Prop :=
  ∀ c, early c = late c ∨
    (∃ e, early c = .error e ∧ e.kind.isTruncated = true) ∧ ∃ e, late c = .error e

variable {α β : Type} {early late : Read α}

theorem Hastens.refl (read : Read α) : Hastens read read := fun _ => .inl rfl

theorem Hastens.bind {f g : α → Read β} (h : Hastens early late) (hf : ∀ a, Hastens (f a) (g a)) :
    Hastens (early >>= f) (late >>= g) := by
  intro c
  rcases h c with heq | ⟨⟨e, he, hkind⟩, e', he'⟩
  · cases hread : late c with
    | error e =>
      rw [hread] at heq
      exact .inl ((bind_apply_eq_error_iff.2 (.inl heq)).trans (bind_apply_eq_error_iff.2 (.inl hread)).symm)
    | ok p =>
      rw [hread] at heq
      rw [bind_apply_of_ok heq, bind_apply_of_ok hread]
      exact hf p.1 p.2
  · exact .inr ⟨⟨e, bind_apply_eq_error_iff.2 (.inl he), hkind⟩, e', bind_apply_eq_error_iff.2 (.inl he')⟩

theorem Hastens.trans {middle : Read α} (h : Hastens early middle) (h' : Hastens middle late) :
    Hastens early late := by
  intro c
  rcases h c with heq | ⟨hearly, e, he⟩
  · rw [heq]
    exact h' c
  · rcases h' c with heq | ⟨-, hlate⟩
    · exact .inr ⟨hearly, e, heq ▸ he⟩
    · exact .inr ⟨hearly, hlate⟩

/-- By induction on the number of entries that are left. -/
theorem hastens_repeatRead (h : Hastens early late) (acc : List α) (n : Nat) :
    Hastens (repeatRead early acc n) (repeatRead late acc n) := by
  induction n generalizing acc with
  | zero => exact Hastens.refl _
  | succ n ih =>
    rw [repeatRead, repeatRead]
    exact h.bind fun a => ih (a :: acc)

theorem decodeTable_of_short {read : Read α} {table : Table} {size n : Nat} {c c' : Cursor}
    (hword : (word 4 : Read Nat) c = .ok (n, c')) (hshort : c'.left < n * size) :
    decodeTable true table size read c = .error ⟨c'.offset, .truncated (n * size) c'.left⟩ := by
  refine bind_apply_eq_error_iff.2 (.inl ?_)
  rw [decodeCount_apply, hword]
  exact if_pos ⟨rfl, hshort⟩

/-- The check of the count alone: a count that it rejects is one that the table does not hold. -/
theorem hastens_check {E : α → List UInt8 → Prop} {read : Read α} {size : Nat} (table : Table) (h : Parses read E)
    (hsize : ∀ a bytes, E a bytes → size ≤ bytes.length) :
    Hastens (decodeTable true table size read) (decodeTable false table size read) := by
  intro c
  cases hword : (word 4 : Read Nat) c with
  | error e =>
    have hcount : ∀ guarded, (decodeCount guarded size : Read Nat) c = .error e := fun guarded =>
      bind_apply_eq_error_iff.2 (.inl hword)
    have htable : ∀ guarded, decodeTable guarded table size read c = .error e := fun guarded =>
      bind_apply_eq_error_iff.2 (.inl (hcount guarded))
    exact .inl ((htable true).trans (htable false).symm)
  | ok p =>
    obtain ⟨n, c'⟩ := p
    by_cases hshort : c'.left < n * size
    · have hearly : decodeTable true table size read c = .error _ := decodeTable_of_short hword hshort
      refine .inr ⟨⟨_, hearly, rfl⟩, ?_⟩
      cases hlate : decodeTable false table size read c with
      | error e => exact ⟨e, rfl⟩
      | ok q =>
        -- what the one reader parses, the other does
        have hok : decodeTable true table size read c = .ok q :=
          (parses_decodeTable table h hsize c _ _).2 ((parses_decodeTable table h hsize c _ _).1 hlate)
        rw [hearly] at hok
        cases hok
    · have hcount : ∀ guarded, (decodeCount guarded size : Read Nat) c = .ok (n, c') := fun guarded =>
        decodeCount_eq_ok_iff.2 ⟨hword, fun hguard => hshort hguard.2⟩
      have htable : ∀ guarded, decodeTable guarded table size read c = repeatRead read [] n c' := fun guarded =>
        bind_apply_of_ok (hcount guarded)
      exact .inl ((htable true).trans (htable false).symm)

theorem hastens_decodeTable {E : α → List UInt8 → Prop} {size : Nat} (table : Table) (h : Hastens early late)
    (hlate : Parses late E) (hsize : ∀ a bytes, E a bytes → size ≤ bytes.length) :
    Hastens (decodeTable true table size early) (decodeTable false table size late) :=
  ((Hastens.refl (decodeCount true size)).bind fun count => (Hastens.refl _).bind fun _ =>
    hastens_repeatRead h [] count).trans (hastens_check table hlate hsize)

theorem hastens_decodeNode : Hastens (decodeNode true) (decodeNode false) := by
  have hinputs : Hastens (decodeTable true .inputs 5 decodeInput) (decodeTable false .inputs 5 decodeInput) :=
    hastens_check .inputs parses_decodeInput fun i bytes h => by
      rw [h.2]
      cases i <;> simp [encodeInput, length_bigEndian]
  have houtputs : Hastens (decodeTable true .outputs 1 decodeRate) (decodeTable false .outputs 1 decodeRate) :=
    hastens_check .outputs parses_decodeRate fun r bytes h => by rw [h, List.length_singleton]
  exact (Hastens.refl _).bind fun name => (Hastens.refl _).bind fun rate => hinputs.bind fun inputs =>
    houtputs.bind fun outputs => Hastens.refl _

theorem hastens_decodeTables : Hastens (decodeTables true) (decodeTables false) := by
  have hconstants :=
    hastens_check .constants parses_decodeSample fun v bytes h => by rw [h, encodeSample, length_bigEndian]
  have hcontrols :=
    hastens_check .controls parses_decodeControl fun c bytes h => ten_le_length_encodeControl h.2
  have hnodes := hastens_decodeTable .nodes hastens_decodeNode (parses_decodeNode false) fun n bytes h =>
    eleven_le_length_encodeNode h.2
  exact hconstants.bind fun constants => hcontrols.bind fun controls => hnodes.bind fun nodes => Hastens.refl _

theorem hastens_decodeGraph : Hastens (decodeGraph true) (decodeGraph false) :=
  (Hastens.refl _).bind fun _ => hastens_decodeTables.bind fun _ => Hastens.refl _

theorem hastens_decodeBody : Hastens (decodeBody true) (decodeBody false) := by
  have hdefinition : Hastens (decodeDefinition true) (decodeDefinition false) :=
    (Hastens.refl _).bind fun name => hastens_decodeGraph.bind fun graph => Hastens.refl _
  exact (Hastens.refl _).bind fun _ => (Hastens.refl _).bind fun count => (Hastens.refl _).bind fun left =>
    (Hastens.refl _).bind fun _ => hastens_repeatRead hdefinition [] count

theorem hastens_decodeFile : Hastens (decodeFile true) (decodeFile false) :=
  hastens_decodeBody.bind fun _ => Hastens.refl _

theorem readDefinitions_hastens (bytes : List UInt8) :
    readDefinitions true bytes = readDefinitions false bytes ∨
      (∃ e, readDefinitions true bytes = .error e ∧ e.kind.isTruncated = true) ∧
        ∃ e, readDefinitions false bytes = .error e := by
  rw [readDefinitions_eq, readDefinitions_eq]
  rcases hastens_decodeFile (.ofBytes bytes) with heq | ⟨⟨e, he, hkind⟩, e', he'⟩
  · rw [heq]
    exact .inl rfl
  · rw [he, he']
    exact .inr ⟨⟨e, rfl, hkind⟩, e', rfl⟩

namespace Decoder

def decodeWith (decoder : Decoder) (guarded : Bool) (bytes : List UInt8) : Except WireError (List Definition) := do
  let ds ← (readDefinitions guarded bytes).mapError .corrupt
  match decoder.catalog with
  | some catalog => checkNames catalog ds
  | none => pure ()
  return ds

theorem decodeWith_true (decoder : Decoder) : decoder.decodeWith true = decoder.decodeAll := rfl

theorem decodeWith_of_error (decoder : Decoder) {guarded : Bool} {bytes : List UInt8} {e : Corruption}
    (h : readDefinitions guarded bytes = .error e) : decoder.decodeWith guarded bytes = .error (.corrupt e) := by
  rw [decodeWith, h]
  rfl

/-- With or without the check the decoder comes to the same, or else it fails either way, and with the check for
want of bytes. -/
theorem decodeAll_hastens (decoder : Decoder) (bytes : List UInt8) :
    decoder.decodeAll bytes = decoder.decodeWith false bytes ∨
      (∃ e, decoder.decodeAll bytes = .error (.corrupt e) ∧ e.kind.isTruncated = true) ∧
        ∃ e, decoder.decodeWith false bytes = .error (.corrupt e) := by
  rw [← decodeWith_true]
  rcases readDefinitions_hastens bytes with heq | ⟨⟨e, he, hkind⟩, e', he'⟩
  · left
    rw [decodeWith, heq]
    rfl
  · exact .inr ⟨⟨e, decodeWith_of_error decoder he, hkind⟩, e', decodeWith_of_error decoder he'⟩

end Decoder

end SoundGraph.Wire
