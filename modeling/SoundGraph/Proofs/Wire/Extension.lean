import SoundGraph.Proofs.Wire.Checked

/-! Files with bytes behind them. A reader never asks how many bytes are left but to notice that some are
missing, so what it comes to stands when more follow, unless it ran out of bytes. Only the end of a file
looks behind itself: there every further byte is one too many. -/

namespace SoundGraph.Wire

def CorruptionKind.isTruncated : CorruptionKind → Bool
  | truncated _ _ => true
  | _ => false

def CorruptionKind.isTrailing : CorruptionKind → Bool
  | trailingBytes _ => true
  | _ => false

def Cursor.extend (c : Cursor) (ext : List UInt8) : Cursor :=
  ⟨c.offset, c.rest ++ ext, c.left + ext.length, by rw [c.left_eq, List.length_append]⟩

/-- What `read` comes to stands when more bytes follow, unless it misses some; that bytes are left over
is not for it to say. -/
structure Lasts {α : Type} (read : Read α) : Prop where
  ok : ∀ {c : Cursor} {a : α} {c' : Cursor} (ext : List UInt8),
    read c = .ok (a, c') → read (c.extend ext) = .ok (a, c'.extend ext)
  error : ∀ {c : Cursor} {e : Corruption} (ext : List UInt8),
    read c = .error e → e.kind.isTruncated = false → read (c.extend ext) = .error e
  inside : ∀ {c : Cursor} {e : Corruption}, read c = .error e → e.kind.isTrailing = false

variable {α β : Type} {read : Read α}

theorem bind_apply_eq_error_iff {f : α → Read β} {c : Cursor} {e : Corruption} :
    (read >>= f) c = .error e ↔
      read c = .error e ∨ ∃ a c', read c = .ok (a, c') ∧ f a c' = .error e := by
  change (read c >>= fun p => f p.1 p.2) = .error e ↔ _
  rw [bind_eq_error_iff, Prod.exists]

theorem lasts_pure (a : α) : Lasts (pure a : Read α) where
  ok _ h := by cases h; rfl
  error _ h := by cases h
  inside h := by cases h

theorem lasts_failAt (offset : Nat) {kind : CorruptionKind} (hkind : kind.isTrailing = false) :
    Lasts (failAt offset kind : Read α) where
  ok _ h := by cases h
  error _ h _ := by cases h; rfl
  inside h := by cases h; exact hkind

theorem Lasts.bind {f : α → Read β} (h : Lasts read) (hf : ∀ a, Lasts (f a)) : Lasts (read >>= f) where
  ok ext hok := by
    obtain ⟨a, c', ha, hb⟩ := bind_apply_eq_ok_iff.1 hok
    exact bind_apply_eq_ok_iff.2 ⟨a, c'.extend ext, h.ok ext ha, (hf a).ok ext hb⟩
  error ext herr hkind := by
    rcases bind_apply_eq_error_iff.1 herr with he | ⟨a, c', ha, he⟩
    · exact bind_apply_eq_error_iff.2 (.inl (h.error ext he hkind))
    · exact bind_apply_eq_error_iff.2 (.inr ⟨a, c'.extend ext, h.ok ext ha, (hf a).error ext he hkind⟩)
  inside herr := by
    rcases bind_apply_eq_error_iff.1 herr with he | ⟨a, c', -, he⟩
    · exact h.inside he
    · exact (hf a).inside he

theorem lasts_offset : Lasts offset where
  ok _ h := by cases h; rfl
  error _ h := by cases h
  inside h := by cases h

theorem lasts_previous : Lasts previous where
  ok _ h := by cases h; rfl
  error _ h := by cases h
  inside h := by cases h

theorem lasts_reserve (table : Table) (capacity : Nat) : Lasts (reserve table capacity) where
  ok _ h := by cases h; rfl
  error _ h := by cases h
  inside h := by cases h

theorem lasts_blame {kind : CorruptionKind} (hkind : kind.isTrailing = false) :
    Lasts (previous >>= fun p => failAt p kind : Read α) :=
  lasts_previous.bind fun p => lasts_failAt p hkind

/-- How much room is made for a table does not matter. -/
theorem Lasts.room {f : Nat → Nat} (table : Table) (h : Lasts read) :
    Lasts (remaining >>= fun left => reserve table (f left) >>= fun _ => read) where
  ok ext hok := h.ok ext hok
  error ext herr := h.error ext herr
  inside herr := h.inside herr

theorem lasts_take (n : Nat) : Lasts (take n) where
  ok {c} xs c' ext h := by
    rw [take_apply] at h
    split at h
    · next hle =>
      cases h
      have hrest : n ≤ c.rest.length := c.left_eq ▸ hle
      have hlong : n ≤ (c.extend ext).left := Nat.le_add_right_of_le hle
      rw [take_apply, if_pos hlong]
      congr 2
      · exact List.take_append_of_le_length hrest
      · exact Cursor.ext_of_rest rfl (List.drop_append_of_le_length hrest)
    · cases h
  error ext h hkind := by
    rw [take_apply] at h
    split at h
    · cases h
    · cases h
      cases hkind
  inside h := by
    rw [take_apply] at h
    split at h <;> cases h
    rfl

theorem lasts_word (width : Nat) : Lasts (word width) := (lasts_take width).bind fun _ => lasts_pure _

theorem lasts_byte : Lasts byte := (lasts_word 1).bind fun _ => lasts_pure _

/-- By induction on the number of entries that are left. -/
theorem lasts_repeatRead (h : Lasts read) (acc : List α) (n : Nat) : Lasts (repeatRead read acc n) := by
  induction n generalizing acc with
  | zero => exact lasts_pure acc.reverse
  | succ n ih =>
    rw [repeatRead]
    exact h.bind fun a => ih (a :: acc)

/-- A count that the bytes left can hold is one that more bytes can hold. -/
theorem lasts_decodeCount (guarded : Bool) (size : Nat) : Lasts (decodeCount guarded size) where
  ok ext h := by
    obtain ⟨hword, hguard⟩ := decodeCount_eq_ok_iff.1 h
    refine decodeCount_eq_ok_iff.2 ⟨(lasts_word 4).ok ext hword, fun hshort => hguard ⟨hshort.1, ?_⟩⟩
    exact Nat.lt_of_le_of_lt (Nat.le_add_right _ _) hshort.2
  error {c e} ext h hkind := by
    rw [decodeCount_apply] at h ⊢
    rcases bind_eq_error_iff.1 h with he | ⟨p, -, he⟩
    · exact bind_eq_error_iff.2 (.inl ((lasts_word 4).error ext he hkind))
    · split at he
      · cases he
        cases hkind
      · cases he
  inside h := by
    rw [decodeCount_apply] at h
    rcases bind_eq_error_iff.1 h with he | ⟨p, -, he⟩
    · exact (lasts_word 4).inside he
    · split at he <;> cases he
      rfl

theorem lasts_decodeTable (guarded : Bool) (table : Table) (size : Nat) (h : Lasts read) :
    Lasts (decodeTable guarded table size read) :=
  (lasts_decodeCount guarded size).bind fun count => (lasts_reserve table count).bind fun _ =>
    lasts_repeatRead h [] count

theorem lasts_decodeName : Lasts decodeName := by
  refine (lasts_word 1).bind fun length => lasts_offset.bind fun start => (lasts_take length).bind fun bytes => ?_
  split
  · exact lasts_pure _
  · exact lasts_failAt _ rfl

theorem lasts_decodeSample : Lasts decodeSample := (lasts_word 4).bind fun _ => lasts_pure _

theorem lasts_decodeRate : Lasts decodeRate := by
  refine lasts_byte.bind fun tag => ?_
  split
  · exact lasts_pure _
  · exact lasts_blame rfl

theorem lasts_decodeInput : Lasts decodeInput := by
  refine lasts_byte.bind fun tag => ?_
  split
  · exact (lasts_word 4).bind fun index => lasts_pure _
  split
  · exact (lasts_word 4).bind fun node => (lasts_word 4).bind fun output => lasts_pure _
  · exact lasts_blame rfl

theorem lasts_decodeControl : Lasts decodeControl :=
  lasts_decodeName.bind fun _ => lasts_decodeRate.bind fun _ => lasts_decodeSample.bind fun _ =>
    (lasts_word 4).bind fun _ => lasts_pure _

theorem lasts_decodeFlags : Lasts decodeFlags := by
  refine lasts_byte.bind fun flags => ?_
  split
  · exact lasts_pure _
  · exact lasts_blame rfl

theorem lasts_decodeNode (guarded : Bool) : Lasts (decodeNode guarded) :=
  lasts_decodeName.bind fun _ => lasts_decodeRate.bind fun _ =>
    (lasts_decodeTable guarded .inputs 5 lasts_decodeInput).bind fun _ =>
      (lasts_decodeTable guarded .outputs 1 lasts_decodeRate).bind fun _ =>
        lasts_decodeFlags.bind fun _ => lasts_pure _

theorem lasts_decodeTables (guarded : Bool) : Lasts (decodeTables guarded) :=
  (lasts_decodeTable guarded .constants 4 lasts_decodeSample).bind fun _ =>
    (lasts_decodeTable guarded .controls 10 lasts_decodeControl).bind fun _ =>
      (lasts_decodeTable guarded .nodes 11 (lasts_decodeNode guarded)).bind fun _ => lasts_pure _

theorem lasts_checkGraph (start : Nat) (g : Graph) : Lasts (checkGraph start g) := by
  rw [checkGraph]
  split
  · exact lasts_pure _
  · exact lasts_failAt _ rfl

theorem lasts_decodeGraph (guarded : Bool) : Lasts (decodeGraph guarded) :=
  lasts_offset.bind fun start => (lasts_decodeTables guarded).bind (lasts_checkGraph start)

theorem lasts_decodeDefinition (guarded : Bool) : Lasts (decodeDefinition guarded) :=
  lasts_decodeName.bind fun _ => (lasts_decodeGraph guarded).bind fun _ => lasts_pure _

theorem lasts_decodeHeader : Lasts decodeHeader := by
  refine (lasts_take 4).bind fun found => ?_
  dsimp only
  split
  · exact lasts_failAt 0 rfl
  refine (lasts_word 4).bind fun found => ?_
  split
  · exact lasts_failAt _ rfl
  · exact lasts_pure ()

theorem lasts_decodeBody (guarded : Bool) : Lasts (decodeBody guarded) :=
  lasts_decodeHeader.bind fun _ => (lasts_word 2).bind fun count =>
    (lasts_repeatRead (lasts_decodeDefinition guarded) [] count).room .definitions

/-- What comes of a file apart from its end. -/
def readBody (guarded : Bool) (bytes : List UInt8) : Except Corruption (List Definition × Cursor) :=
  (decodeBody guarded : Read (List Definition)) (.ofBytes bytes)

theorem ofBytes_append (bytes ext : List UInt8) :
    Cursor.ofBytes (bytes ++ ext) = (Cursor.ofBytes bytes).extend ext :=
  Cursor.ext_of_rest rfl rfl

theorem readDefinitions_eq_bind (guarded : Bool) (bytes : List UInt8) :
    readDefinitions guarded bytes = readBody guarded bytes >>= fun p =>
      if 0 < p.2.left then .error ⟨p.2.offset, .trailingBytes p.2.left⟩ else .ok p.1 := by
  change Prod.fst <$> (readBody guarded bytes >>= fun p => (decodeEnd : Read Unit) p.2 >>= fun q =>
    .ok (p.1, q.2)) = _
  cases readBody guarded bytes with
  | error e => rfl
  | ok p =>
    change Prod.fst <$> ((decodeEnd : Read Unit) p.2 >>= fun q => .ok (p.1, q.2)) =
      if 0 < p.2.left then .error ⟨p.2.offset, .trailingBytes p.2.left⟩ else .ok p.1
    rw [decodeEnd_apply]
    split <;> rfl

/-- The end of a file is an error just if bytes are left over, which it counts. -/
theorem readDefinitions_of_body_ok {guarded : Bool} {bytes : List UInt8} {ds : List Definition} {c : Cursor}
    (h : readBody guarded bytes = .ok (ds, c)) :
    readDefinitions guarded bytes =
      if 0 < c.left then .error ⟨c.offset, .trailingBytes c.left⟩ else .ok ds := by
  rw [readDefinitions_eq_bind, h]
  rfl

theorem readDefinitions_of_body_error {guarded : Bool} {bytes : List UInt8} {e : Corruption}
    (h : readBody guarded bytes = .error e) : readDefinitions guarded bytes = .error e := by
  rw [readDefinitions_eq_bind, h]
  rfl

theorem left_of_readBody {guarded : Bool} {bytes : List UInt8} {ds : List Definition} {c : Cursor}
    (h : readBody guarded bytes = .ok (ds, c)) : c.offset + c.left = bytes.length := by
  obtain ⟨xs, -, hskip⟩ := (parses_decodeBody guarded _ _ _).1 h
  have hrest : bytes = xs ++ c.rest := hskip.rest
  have hoffset : c.offset = 0 + xs.length := hskip.offset
  rw [c.left_eq, hoffset, Nat.zero_add, hrest, List.length_append]

variable {guarded : Bool} {bytes ext : List UInt8}

/-- Behind the last definition, what follows adds to what is left over. -/
theorem readDefinitions_append_of_body {ds : List Definition} {c : Cursor} (hext : ext ≠ [])
    (h : readBody guarded bytes = .ok (ds, c)) :
    readDefinitions guarded (bytes ++ ext) = .error ⟨c.offset, .trailingBytes (c.left + ext.length)⟩ := by
  have hbody : readBody guarded (bytes ++ ext) = .ok (ds, c.extend ext) := by
    rw [readBody, ofBytes_append]
    exact (lasts_decodeBody guarded).ok ext h
  have hmore : 0 < (c.extend ext).left := Nat.add_pos_right _ (List.length_pos_iff.2 hext)
  rw [readDefinitions_of_body_ok hbody, if_pos hmore]
  rfl

theorem readDefinitions_append_of_ok {ds : List Definition} (hext : ext ≠ [])
    (h : readDefinitions guarded bytes = .ok ds) :
    readDefinitions guarded (bytes ++ ext) = .error ⟨bytes.length, .trailingBytes ext.length⟩ := by
  cases hbody : readBody guarded bytes with
  | error e =>
    rw [readDefinitions_of_body_error hbody] at h
    cases h
  | ok p =>
    obtain ⟨ds', c⟩ := p
    have hlen := left_of_readBody hbody
    rw [readDefinitions_of_body_ok hbody] at h
    split at h
    · cases h
    · next hnone =>
      have hzero : c.left = 0 := Nat.eq_zero_of_not_pos hnone
      rw [readDefinitions_append_of_body hext hbody, ← hlen, hzero, Nat.zero_add, Nat.add_zero]

theorem readDefinitions_append_of_trailing {offset n : Nat} (hext : ext ≠ [])
    (h : readDefinitions guarded bytes = .error ⟨offset, .trailingBytes n⟩) :
    readDefinitions guarded (bytes ++ ext) = .error ⟨offset, .trailingBytes (n + ext.length)⟩ := by
  cases hbody : readBody guarded bytes with
  | error e =>
    have hinside := (lasts_decodeBody guarded).inside hbody
    rw [readDefinitions_of_body_error hbody] at h
    cases h
    cases hinside
  | ok p =>
    obtain ⟨ds, c⟩ := p
    rw [readDefinitions_of_body_ok hbody] at h
    split at h
    · cases h
      exact readDefinitions_append_of_body hext hbody
    · cases h

theorem readDefinitions_append_of_error {e : Corruption} (htruncated : e.kind.isTruncated = false)
    (htrailing : e.kind.isTrailing = false) (h : readDefinitions guarded bytes = .error e) :
    readDefinitions guarded (bytes ++ ext) = .error e := by
  cases hbody : readBody guarded bytes with
  | error e' =>
    rw [readDefinitions_of_body_error hbody] at h
    cases h
    refine readDefinitions_of_body_error ?_
    rw [readBody, ofBytes_append]
    exact (lasts_decodeBody guarded).error ext hbody htruncated
  | ok p =>
    obtain ⟨ds, c⟩ := p
    rw [readDefinitions_of_body_ok hbody] at h
    split at h
    · cases h
      cases htrailing
    · cases h

/-- Where every byte of a file is needed, fewer are too few. -/
theorem readDefinitions_of_prefix {ds : List Definition} (hext : ext ≠ [])
    (h : readDefinitions guarded (bytes ++ ext) = .ok ds) :
    ∃ offset needed available,
      readDefinitions guarded bytes = .error ⟨offset, .truncated needed available⟩ := by
  cases hshort : readDefinitions guarded bytes with
  | ok ds' =>
    rw [readDefinitions_append_of_ok hext hshort] at h
    cases h
  | error e =>
    obtain ⟨offset, kind⟩ := e
    cases htruncated : kind.isTruncated with
    | true =>
      cases kind <;> cases htruncated
      exact ⟨offset, _, _, rfl⟩
    | false =>
      cases htrailing : kind.isTrailing with
      | true =>
        cases kind <;> cases htrailing
        rw [readDefinitions_append_of_trailing hext hshort] at h
        cases h
      | false =>
        rw [readDefinitions_append_of_error htruncated htrailing hshort] at h
        cases h

/-- With bytes behind it, an accepted file is rejected for those bytes, and a file with bytes left over has so
many more. Any other fault stays what it is and where it is, unless bytes were missing. So a file that is
accepted misses bytes wherever it is cut. -/
theorem decodeAll_append (decoder : Decoder) (bytes ext : List UInt8) (hext : ext ≠ []) :
    (∀ ds, decoder.decodeAll bytes = .ok ds →
        decoder.decodeAll (bytes ++ ext) = .error (.corrupt ⟨bytes.length, .trailingBytes ext.length⟩)) ∧
      (∀ offset n, decoder.decodeAll bytes = .error (.corrupt ⟨offset, .trailingBytes n⟩) →
        decoder.decodeAll (bytes ++ ext) = .error (.corrupt ⟨offset, .trailingBytes (n + ext.length)⟩)) ∧
      (∀ offset kind, kind.isTrailing = false → kind.isTruncated = false →
        decoder.decodeAll bytes = .error (.corrupt ⟨offset, kind⟩) →
          decoder.decodeAll (bytes ++ ext) = .error (.corrupt ⟨offset, kind⟩)) ∧
      ∀ ds, decoder.decodeAll (bytes ++ ext) = .ok ds →
        ∃ offset needed available,
          decoder.decodeAll bytes = .error (.corrupt ⟨offset, .truncated needed available⟩) := by
  simp only [Decoder.decodeAll_eq_corrupt_iff]
  refine ⟨?_, ?_, ?_, ?_⟩
  · intro ds h
    exact readDefinitions_append_of_ok hext (Decoder.readDefinitions_of_decodeAll h)
  · intro offset n h
    exact readDefinitions_append_of_trailing hext h
  · intro offset kind htrailing htruncated h
    exact readDefinitions_append_of_error htruncated htrailing h
  · intro ds h
    exact readDefinitions_of_prefix hext (Decoder.readDefinitions_of_decodeAll h)

/-- A file with two bytes and then a third behind it, one that starts with another word, and one without its
last byte. -/
theorem decodeAll_append_odd :
    decodeAll (oddBytes ++ [7, 7]) = .error (.corrupt ⟨91, .trailingBytes 2⟩) ∧
      decodeAll (oddBytes ++ [7, 7] ++ [7]) = .error (.corrupt ⟨91, .trailingBytes 3⟩) ∧
      decodeAll ([0x52, 0x49, 0x46, 0x46] ++ [0]) =
        .error (.corrupt ⟨0, .badMagic [0x52, 0x49, 0x46, 0x46]⟩) ∧
      ∃ offset needed available,
        decodeAll oddBytes.dropLast = .error (.corrupt ⟨offset, .truncated needed available⟩) := by
  have hodd : decodeAll oddBytes = .ok [oddDefinition] := by cbv
  have hmagic : decodeAll [0x52, 0x49, 0x46, 0x46] =
      .error (.corrupt ⟨0, .badMagic [0x52, 0x49, 0x46, 0x46]⟩) := by cbv
  have htwo := (decodeAll_append {} oddBytes [7, 7] (by decide)).1 _ hodd
  have hwhole : oddBytes.dropLast ++ [3] = oddBytes := by decide
  refine ⟨htwo, (decodeAll_append {} (oddBytes ++ [7, 7]) [7] (by decide)).2.1 _ _ htwo,
    (decodeAll_append {} _ [0] (by decide)).2.2.1 _ _ rfl rfl hmagic, ?_⟩
  exact (decodeAll_append {} oddBytes.dropLast [3] (by decide)).2.2.2 _ (hwhole ▸ hodd)

end SoundGraph.Wire
