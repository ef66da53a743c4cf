import SoundGraph.Proofs.Success
import SoundGraph.Proofs.Wire.Word
import SoundGraph.Wire.Decode

/-! Exact readers. A reader parses a relation between values and bytes if it succeeds just where the
unread bytes begin with bytes of a value, takes exactly these, and answers with the value. One such
statement gives both directions at once: what is written is read back, and what is read was written. -/

namespace SoundGraph.Wire

theorem Cursor.ext_of_rest {c c' : Cursor} (ho : c.offset = c'.offset) (hr : c.rest = c'.rest) :
    c = c' := by
  obtain ⟨offset, rest, left, rfl⟩ := c
  obtain ⟨offset', rest', left', rfl⟩ := c'
  cases ho
  cases hr
  rfl

/-- The cursor `c` with `bytes` taken off its front leaves `c'`. -/
structure Cursor.Skips (c : Cursor) (bytes : List UInt8) (c' : Cursor) : Prop where
  rest : c.rest = bytes ++ c'.rest
  offset : c'.offset = c.offset + bytes.length

namespace Cursor

variable {c c' c'' : Cursor} {xs ys : List UInt8}

theorem skips_nil_iff : c.Skips [] c' ↔ c' = c :=
  ⟨fun h => ext_of_rest h.offset h.rest.symm, fun h => h ▸ ⟨rfl, rfl⟩⟩

theorem skips_append_iff :
    c.Skips (xs ++ ys) c'' ↔ ∃ c', c.Skips xs c' ∧ c'.Skips ys c'' := by
  refine ⟨?_, ?_⟩
  · intro h
    refine ⟨⟨c.offset + xs.length, ys ++ c''.rest, _, rfl⟩, ⟨?_, rfl⟩, ⟨rfl, ?_⟩⟩
    · rw [h.rest, List.append_assoc]
    · rw [h.offset, List.length_append, Nat.add_assoc]
  · intro h'
    rcases h' with ⟨c', h₁, h₂⟩
    exact ⟨by rw [h₁.rest, h₂.rest, List.append_assoc],
      by rw [h₂.offset, h₁.offset, List.length_append, Nat.add_assoc]⟩

theorem Skips.length_le (h : c.Skips xs c') : xs.length ≤ c.left := by
  rw [c.left_eq, h.rest, List.length_append]
  exact Nat.le_add_right ..

end Cursor

/-- `read` answers with `a` just where bytes of `a` come next, and takes these. -/
def Parses {α : Type} (read : Read α) (E : α → List UInt8 → Prop) : Prop :=
  ∀ c a c', read c = .ok (a, c') ↔ ∃ bytes, E a bytes ∧ c.Skips bytes c'

variable {α β : Type} {read : Read α} {E E' : α → List UInt8 → Prop}

theorem Parses.congr (h : Parses read E) (hE : ∀ a bytes, E a bytes ↔ E' a bytes) :
    Parses read E' := by
  intro c a c'
  rw [h c a c']
  simp only [hE]

theorem parses_pure (a : α) : Parses (pure a) fun b bytes => b = a ∧ bytes = [] := by
  intro c b c'
  change (Except.ok (a, c) : Except Corruption (α × Cursor)) = .ok (b, c') ↔ _
  refine ⟨?_, ?_⟩
  · intro h'
    cases h'
    exact ⟨[], ⟨rfl, rfl⟩, Cursor.skips_nil_iff.2 rfl⟩
  · intro h'
    rcases h' with ⟨_, ⟨rfl, rfl⟩, h⟩
    rw [Cursor.skips_nil_iff.1 h]

theorem parses_failAt (offset : Nat) (kind : CorruptionKind) (h : ∀ a bytes, ¬E a bytes) :
    Parses (failAt offset kind : Read α) E := by
  intro c a c'
  change (Except.error _ : Except Corruption (α × Cursor)) = .ok (a, c') ↔ _
  simp [h]

theorem bind_apply_of_ok {f : α → Read β} {c c' : Cursor} {a : α} (h : read c = .ok (a, c')) :
    (read >>= f) c = f a c' := by
  change (read c >>= fun p => f p.1 p.2) = _
  rw [h]
  rfl

theorem bind_apply_eq_ok_iff {f : α → Read β} {c : Cursor} {r : β × Cursor} :
    (read >>= f) c = .ok r ↔ ∃ a c', read c = .ok (a, c') ∧ f a c' = .ok r := by
  change (read c >>= fun p => f p.1 p.2) = .ok r ↔ _
  rw [bind_eq_ok_iff, Prod.exists]

theorem Parses.bind {f : α → Read β} {F : α → β → List UInt8 → Prop} (h : Parses read E)
    (hf : ∀ a, Parses (f a) (F a)) :
    Parses (read >>= f) fun b bytes => ∃ a xs ys, E a xs ∧ F a b ys ∧ bytes = xs ++ ys := by
  intro c b c''
  rw [bind_apply_eq_ok_iff]
  refine ⟨?_, ?_⟩
  · intro h'
    rcases h' with ⟨a, c', ha, hb⟩
    obtain ⟨xs, hE, hxs⟩ := (h c a c').1 ha
    obtain ⟨ys, hF, hys⟩ := (hf a c' b c'').1 hb
    exact ⟨xs ++ ys, ⟨a, xs, ys, hE, hF, rfl⟩, Cursor.skips_append_iff.2 ⟨c', hxs, hys⟩⟩
  · intro h'
    rcases h' with ⟨_, ⟨a, xs, ys, hE, hF, rfl⟩, hskip⟩
    obtain ⟨c', hxs, hys⟩ := Cursor.skips_append_iff.1 hskip
    exact ⟨a, c', (h c a c').2 ⟨xs, hE, hxs⟩, (hf a c' b c'').2 ⟨ys, hF, hys⟩⟩

theorem Parses.map (h : Parses read E) (g : α → β) :
    Parses (read >>= fun a => pure (g a)) fun b bytes => ∃ a, b = g a ∧ E a bytes := by
  refine (h.bind fun a => parses_pure (g a)).congr fun b bytes => ?_
  refine ⟨?_, ?_⟩
  · intro hx
    rcases hx with ⟨a, xs, _, hE, ⟨rfl, rfl⟩, rfl⟩
    exact ⟨a, rfl, by rwa [List.append_nil]⟩
  · intro hx
    rcases hx with ⟨a, rfl, hE⟩
    exact ⟨a, bytes, [], hE, ⟨rfl, rfl⟩, (List.append_nil _).symm⟩

def Peeks (look : Read β) : Prop := ∀ c, ∃ b, look c = .ok (b, c)

theorem peeks_offset : Peeks offset := fun c => ⟨c.offset, rfl⟩

theorem peeks_previous : Peeks previous := fun c => ⟨c.offset - 1, rfl⟩

theorem peeks_remaining : Peeks remaining := fun c => ⟨c.left, rfl⟩

theorem peeks_reserve (table : Table) (capacity : Nat) : Peeks (reserve table capacity) := fun _ => ⟨(), rfl⟩

theorem Parses.peek {look : Read β} {f : β → Read α} (hlook : Peeks look) (h : ∀ b, Parses (f b) E) :
    Parses (look >>= f) E := by
  intro c a c'
  obtain ⟨b, hb⟩ := hlook c
  rw [bind_apply_of_ok hb]
  exact h b c a c'

theorem parses_blame (kind : CorruptionKind) (h : ∀ a bytes, ¬E a bytes) :
    Parses (previous >>= fun p => failAt p kind : Read α) E :=
  .peek peeks_previous fun p => parses_failAt p kind h

theorem take_apply (n : Nat) (c : Cursor) : (take n : Read (List UInt8)) c =
    if n ≤ c.left then
      .ok (c.rest.take n, ⟨c.offset + n, c.rest.drop n, c.left - n, by rw [c.left_eq, List.length_drop]⟩)
    else .error ⟨c.offset, .truncated n c.left⟩ := rfl

theorem parses_take (n : Nat) : Parses (take n) fun xs bytes => xs = bytes ∧ bytes.length = n := by
  intro c xs c'
  rw [take_apply]
  refine ⟨?_, ?_⟩
  · intro h
    split at h
    · next hle =>
      cases h
      rw [c.left_eq] at hle
      have hlen : (c.rest.take n).length = n := List.length_take_of_le hle
      exact ⟨_, ⟨rfl, hlen⟩, (List.take_append_drop n c.rest).symm, by rw [hlen]⟩
    · cases h
  · intro h'
    rcases h' with ⟨bytes, ⟨rfl, rfl⟩, h⟩
    rw [if_pos h.length_le]
    have hrest := h.rest
    congr 2
    · rw [hrest, List.take_left]
    · refine Cursor.ext_of_rest h.offset.symm ?_
      change c.rest.drop xs.length = c'.rest
      rw [hrest, List.drop_left]

theorem parses_word (width : Nat) :
    Parses (word width) fun n bytes => n < span width ∧ bytes = bigEndian width n := by
  refine ((parses_take width).map ofBigEndian).congr fun n bytes => ?_
  refine ⟨?_, ?_⟩
  · intro h
    rcases h with ⟨xs, rfl, rfl, hlen⟩
    exact (ofBigEndian_eq_iff hlen).1 rfl
  · intro h
    rcases h with ⟨hn, rfl⟩
    exact ⟨_, (ofBigEndian_bigEndian hn).symm, rfl, length_bigEndian width n⟩

theorem bigEndian_one (n : Nat) : bigEndian 1 n = [UInt8.ofNat n] := by
  rw [bigEndian, bigEndian, span, Nat.div_one]

theorem parses_byte : Parses byte fun b bytes => bytes = [b] := by
  refine ((parses_word 1).map UInt8.ofNat).congr fun b bytes => ?_
  refine ⟨?_, ?_⟩
  · intro h
    rcases h with ⟨n, rfl, -, rfl⟩
    exact bigEndian_one n
  · intro h
    subst h
    exact ⟨b.toNat, UInt8.ofNat_toNat.symm, b.toNat_lt, by rw [bigEndian_one, UInt8.ofNat_toNat]⟩

/-- By induction on the number of entries that are left. -/
theorem parses_repeatRead (h : Parses read E) (acc : List α) (n : Nat) :
    Parses (repeatRead read acc n) fun as bytes =>
      ∃ new parts, as = acc.reverse ++ new ∧ new.length = n ∧ List.Forall₂ E new parts ∧
        bytes = parts.flatten := by
  induction n generalizing acc with
  | zero =>
    refine (parses_pure acc.reverse).congr fun as bytes => ?_
    refine ⟨?_, ?_⟩
    · intro h'
      rcases h' with ⟨rfl, rfl⟩
      exact ⟨[], [], (List.append_nil _).symm, rfl, .nil, rfl⟩
    · intro h'
      rcases h' with ⟨new, parts, rfl, hlen, hparts, rfl⟩
      obtain rfl := List.eq_nil_of_length_eq_zero hlen
      cases hparts
      exact ⟨List.append_nil _, rfl⟩
  | succ n ih =>
    rw [repeatRead]
    refine (h.bind fun a => ih (a :: acc)).congr fun as bytes => ?_
    refine ⟨?_, ?_⟩
    · intro hx
      rcases hx with ⟨a, xs, _, ha, ⟨new, parts, rfl, rfl, hparts, rfl⟩, rfl⟩
      refine ⟨a :: new, xs :: parts, ?_, rfl, .cons ha hparts, rfl⟩
      rw [List.reverse_cons, List.append_assoc, List.singleton_append]
    · intro hx
      rcases hx with ⟨new, parts, rfl, hlen, hparts, rfl⟩
      cases hparts with
      | nil => cases hlen
      | @cons a xs new parts ha hparts =>
        refine ⟨a, xs, parts.flatten, ha, ⟨new, parts, ?_, Nat.succ.inj hlen, hparts, rfl⟩, rfl⟩
        rw [List.reverse_cons, List.append_assoc, List.singleton_append]

/-- The bytes of a table: the count, then the entries. -/
def TableBytes (E : α → List UInt8 → Prop) (as : List α) (bytes : List UInt8) : Prop :=
  as.length < span 4 ∧ ∃ parts, List.Forall₂ E as parts ∧ bytes = bigEndian 4 as.length ++ parts.flatten

theorem length_flatten_ge {size : Nat} (hsize : ∀ a bytes, E a bytes → size ≤ bytes.length)
    {as : List α} {parts : List (List UInt8)} (h : List.Forall₂ E as parts) :
    as.length * size ≤ parts.flatten.length := by
  induction h with
  | nil => simp
  | cons ha _ ih =>
    have := hsize _ _ ha
    rw [List.length_cons, List.flatten_cons, List.length_append, Nat.succ_mul]
    omega

theorem decodeCount_apply (guarded : Bool) (size : Nat) (c : Cursor) : (decodeCount guarded size : Read Nat) c =
    (word 4 : Read Nat) c >>= fun p =>
      if guarded = true ∧ p.2.left < p.1 * size then .error ⟨p.2.offset, .truncated (p.1 * size) p.2.left⟩
      else .ok p := by
  change ((word 4 : Read Nat) c >>= fun p =>
    (if guarded = true ∧ p.2.left < p.1 * size then _ else _ : Read Nat) p.2) = _
  congr 1
  funext p
  split <;> rfl

theorem decodeCount_eq_ok_iff {guarded : Bool} {size n : Nat} {c c' : Cursor} :
    (decodeCount guarded size : Read Nat) c = .ok (n, c') ↔
      (word 4 : Read Nat) c = .ok (n, c') ∧ ¬(guarded = true ∧ c'.left < n * size) := by
  rw [decodeCount_apply, bind_eq_ok_iff]
  refine ⟨?_, ?_⟩
  · rintro ⟨⟨k, c₁⟩, hw, h⟩
    split at h
    · cases h
    · next hguard =>
      cases h
      exact ⟨hw, hguard⟩
  · rintro ⟨hw, hguard⟩
    exact ⟨(n, c'), hw, if_neg hguard⟩

/-- The early check of the count rejects nothing that the entries would let pass. -/
theorem parses_decodeTable {guarded : Bool} {size : Nat} (table : Table) (h : Parses read E)
    (hsize : ∀ a bytes, E a bytes → size ≤ bytes.length) :
    Parses (decodeTable guarded table size read) (TableBytes E) := by
  intro c as c''
  rw [decodeTable, bind_apply_eq_ok_iff]
  refine ⟨?_, ?_⟩
  · intro h'
    rcases h' with ⟨n, c', hcount, hentries⟩
    obtain ⟨_, ⟨hn, rfl⟩, hskip⟩ := (parses_word 4 c n c').1 (decodeCount_eq_ok_iff.1 hcount).1
    obtain ⟨_, ⟨new, parts, rfl, rfl, hparts, rfl⟩, hskip'⟩ :=
      (parses_repeatRead h [] n c' as c'').1 hentries
    exact ⟨_, ⟨hn, parts, hparts, rfl⟩, Cursor.skips_append_iff.2 ⟨c', hskip, hskip'⟩⟩
  · intro h'
    rcases h' with ⟨_, ⟨hn, parts, hparts, rfl⟩, hskip⟩
    obtain ⟨c', hskip, hskip'⟩ := Cursor.skips_append_iff.1 hskip
    refine ⟨as.length, c', decodeCount_eq_ok_iff.2 ⟨?_, ?_⟩, ?_⟩
    · exact (parses_word 4 c _ c').2 ⟨_, ⟨hn, rfl⟩, hskip⟩
    · have := length_flatten_ge hsize hparts
      have := hskip'.length_le
      omega
    · exact (parses_repeatRead h [] _ c' as c'').2 ⟨_, ⟨as, parts, rfl, rfl, hparts, rfl⟩, hskip'⟩

end SoundGraph.Wire
