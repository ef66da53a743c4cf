import Mathlib.Tactic.IntervalCases
import SoundGraph.Proofs.Wire.Cursor

/-! The fields and records of a definition, each with the reader that parses exactly its bytes. The
numbers of an input or a control must fit their words for this; that they do is a matter of the graph
around them. -/

namespace SoundGraph.Wire

theorem toList_loop (b : ByteArray) (i : Nat) (acc : List UInt8) :
    ByteArray.toList.loop b i acc = acc.reverse ++ b.data.toList.drop i := by
  induction i, acc using ByteArray.toList.loop.induct b with
  | case1 i acc h ih =>
    rw [ByteArray.toList.loop, if_pos h, ih]
    have hi : i < b.data.toList.length := h
    have hget : b.get! i = b.data.toList[i] := by
      rw [Array.getElem_toList]
      exact getElem!_pos b.data i h
    rw [List.drop_eq_getElem_cons hi, List.reverse_cons, List.append_assoc, hget]
    rfl
  | case2 i acc h =>
    have hi : b.data.toList.length ≤ i := Nat.le_of_not_lt h
    rw [ByteArray.toList.loop, if_neg h, List.drop_eq_nil_of_le hi, List.append_nil]

/-- No two byte strings are the same text, and every text is one of them. -/
theorem fromUTF8?_eq_some_iff {bytes : List UInt8} {s : String} :
    String.fromUTF8? ⟨bytes.toArray⟩ = some s ↔ s.toUTF8.toList = bytes := by
  have hlist : ∀ b : ByteArray, b.toList = b.data.toList := fun b => toList_loop b 0 []
  rw [hlist, String.fromUTF8?]
  refine ⟨?_, ?_⟩
  · intro h
    split at h
    · cases h
      rfl
    · cases h
  · intro h'
    subst h'
    have hb : (⟨s.toUTF8.data.toList.toArray⟩ : ByteArray) = s.toUTF8 := rfl
    rw [hb, String.toUTF8_eq_toByteArray, dif_pos s.isValidUTF8]
    rfl

theorem encodeName_eq_ok_iff {s : String} {bytes : List UInt8} :
    encodeName s = .ok bytes ↔
      s.toUTF8.toList.length < 256 ∧ bytes = UInt8.ofNat s.toUTF8.toList.length :: s.toUTF8.toList := by
  unfold encodeName
  exact ite_eq_ok_iff

theorem parses_decodeName : Parses decodeName fun s bytes => encodeName s = .ok bytes := by
  refine ((parses_word 1).bind fun n => .peek peeks_offset fun start => (parses_take n).bind
    (F := fun xs (s : String) bytes => s.toUTF8.toList = xs ∧ bytes = []) fun xs => ?_).congr
      fun s bytes => ?_
  · simp only [← fromUTF8?_eq_some_iff]
    split
    · next name hname => exact (parses_pure name).congr fun s bytes => by simp [hname, eq_comm]
    · next hname => exact parses_failAt _ _ fun s bytes h => by simp [hname] at h
  rw [encodeName_eq_ok_iff]
  refine ⟨?_, ?_⟩
  · intro h'
    rcases h' with ⟨n, _, _, ⟨hn, rfl⟩, ⟨xs, _, _, ⟨rfl, rfl⟩, ⟨rfl, rfl⟩, rfl⟩, rfl⟩
    refine ⟨hn, ?_⟩
    rw [bigEndian_one, List.append_nil, List.singleton_append]
  · intro h'
    rcases h' with ⟨hn, rfl⟩
    refine ⟨_, _, _, ⟨hn, rfl⟩, ⟨_, _, _, ⟨rfl, rfl⟩, ⟨rfl, rfl⟩, rfl⟩, ?_⟩
    rw [bigEndian_one, List.append_nil, List.singleton_append]

theorem parses_decodeSample : Parses decodeSample fun v bytes => bytes = encodeSample v := by
  refine ((parses_word 4).map fun n => Sample.mk (UInt32.ofNat n)).congr fun v bytes => ?_
  refine ⟨?_, ?_⟩
  · intro h
    rcases h with ⟨n, rfl, hn, rfl⟩
    rw [encodeSample, UInt32.toNat_ofNat_of_lt' hn]
  · intro h
    subst h
    exact ⟨v.bits.toNat, by rw [UInt32.ofNat_toNat], v.bits.toNat_lt, rfl⟩

/-- A field that opens with a byte telling what it is. -/
theorem parses_tagged {α : Type} {f : UInt8 → Read α} {E : α → List UInt8 → Prop}
    (hne : ∀ a, ¬E a []) (hf : ∀ tag, Parses (f tag) fun a bytes => E a (tag :: bytes)) :
    Parses (byte >>= f) E := by
  refine (parses_byte.bind hf).congr fun a bytes => ?_
  refine ⟨?_, ?_⟩
  · intro h
    rcases h with ⟨tag, _, ys, rfl, hE, rfl⟩
    exact hE
  · intro hE
    cases bytes with
    | nil => exact absurd hE (hne a)
    | cons tag ys => exact ⟨tag, [tag], ys, rfl, hE, rfl⟩

theorem ofTag?_eq_some_iff {tag : UInt8} {r : Rate} :
    Rate.ofTag? tag.toNat = some r ↔ encodeRate r = tag := by
  refine ⟨?_, ?_⟩
  · intro h
    rw [encodeRate, Rate.tag_of_ofTag? h, UInt8.ofNat_toNat]
  · intro h'
    subst h'
    cases r <;> rfl

theorem parses_decodeRate : Parses decodeRate fun r bytes => bytes = [encodeRate r] := by
  refine parses_tagged (fun r h => by cases h) fun tag => ?_
  split
  · next rate hrate =>
    refine (parses_pure rate).congr fun r bytes => ?_
    rw [List.cons.injEq, eq_comm (a := tag), ← ofTag?_eq_some_iff, hrate, Option.some.injEq, eq_comm]
  · next hnone =>
    refine parses_blame _ fun r bytes h => ?_
    rw [List.cons.injEq, eq_comm (a := tag), ← ofTag?_eq_some_iff, hnone] at h
    cases h.1

end SoundGraph.Wire

namespace SoundGraph

def Input.Fits : Input → Prop
  | .constant index => index < Wire.span 4
  | .node source => source.node < Wire.span 4 ∧ source.output < Wire.span 4

end SoundGraph

namespace SoundGraph.Wire

theorem parses_decodeInput : Parses decodeInput fun i bytes => i.Fits ∧ bytes = encodeInput i := by
  refine parses_tagged (fun i h => ?_) fun tag => ?_
  · cases i <;> cases h.2
  split
  · next htag =>
    subst htag
    refine ((parses_word 4).map Input.constant).congr fun i bytes => ?_
    refine ⟨?_, ?_⟩
    · intro h'
      rcases h' with ⟨k, rfl, hk, rfl⟩
      exact ⟨hk, rfl⟩
    · intro h'
      rcases h' with ⟨hfits, hbytes⟩
      cases i with
      | constant k =>
        rw [encodeInput, List.cons.injEq] at hbytes
        exact ⟨k, rfl, hfits, hbytes.2⟩
      | node source => cases hbytes
  split
  · next htag =>
    subst htag
    refine ((parses_word 4).bind fun node => (parses_word 4).map fun output =>
      Input.node ⟨node, output⟩).congr fun i bytes => ?_
    refine ⟨?_, ?_⟩
    · intro hx
      rcases hx with ⟨node, _, _, ⟨hnode, rfl⟩, ⟨output, rfl, hout, rfl⟩, rfl⟩
      exact ⟨⟨hnode, hout⟩, rfl⟩
    · intro hx
      rcases hx with ⟨hfits, hbytes⟩
      cases i with
      | constant k => cases hbytes
      | node source =>
        rw [encodeInput, List.cons.injEq] at hbytes
        exact ⟨source.node, _, _, ⟨hfits.1, rfl⟩, ⟨source.output, rfl, hfits.2, rfl⟩, hbytes.2⟩
  · next hconst hnode =>
    refine parses_blame _ fun i bytes h => ?_
    obtain ⟨-, hbytes⟩ := h
    cases i <;> cases hbytes
    · exact hconst rfl
    · exact hnode rfl

/-- What is asked of every entry, apart from the bytes. -/
theorem tableBytes_and {α : Type} {P : α → Prop} {E : α → List UInt8 → Prop} {as : List α}
    {bytes : List UInt8} :
    TableBytes (fun a xs => P a ∧ E a xs) as bytes ↔ (∀ a ∈ as, P a) ∧ TableBytes E as bytes := by
  unfold TableBytes
  simp only [List.forall₂_and_left]
  tauto

theorem parses_decodeControl :
    Parses decodeControl fun c bytes => c.index < span 4 ∧ encodeControl c = .ok bytes := by
  refine (parses_decodeName.bind fun name => parses_decodeRate.bind fun rate =>
    parses_decodeSample.bind fun default =>
      (parses_word 4).map (Control.mk name rate default)).congr fun c bytes => ?_
  refine ⟨?_, ?_⟩
  · intro h'
    rcases h' with ⟨name, xs, _, hname, ⟨rate, _, _, rfl, ⟨default, _, _, rfl,
      ⟨index, rfl, hindex, rfl⟩, rfl⟩, rfl⟩, rfl⟩
    exact ⟨hindex, bind_eq_ok_iff.2 ⟨xs, hname, rfl⟩⟩
  · intro h'
    rcases h' with ⟨hindex, h⟩
    obtain ⟨xs, hname, h⟩ := bind_eq_ok_iff.1 h
    cases h
    exact ⟨c.name, xs, _, hname, ⟨c.rate, _, _, rfl, ⟨c.default, _, _, rfl,
      ⟨c.index, rfl, hindex, rfl⟩, rfl⟩, rfl⟩, rfl⟩

def flagByte (sideEffect doneFlag : Bool) : UInt8 :=
  (if sideEffect then 1 else 0) + (if doneFlag then 2 else 0)

theorem flagByte_eq_iff {flags : UInt8} {sideEffect doneFlag : Bool} :
    flagByte sideEffect doneFlag = flags ↔
      flags.toNat < 4 ∧ sideEffect = decide (flags.toNat % 2 = 1) ∧
        doneFlag = decide (flags.toNat / 2 = 1) := by
  refine ⟨?_, ?_⟩
  · intro h
    subst h
    cases sideEffect <;> cases doneFlag <;> decide
  · intro h
    rcases h with ⟨hlt, rfl, rfl⟩
    apply UInt8.toNat_inj.1
    interval_cases flags.toNat <;> rfl

theorem parses_decodeFlags : Parses decodeFlags fun p bytes => bytes = [flagByte p.1 p.2] := by
  refine parses_tagged (fun r h => by cases h) fun flags => ?_
  split
  · next hlt =>
    refine (parses_pure _).congr fun p bytes => ?_
    rw [List.cons.injEq, eq_comm (a := flags), flagByte_eq_iff, and_iff_right hlt, Prod.ext_iff]
  · next hge =>
    refine parses_blame _ fun p bytes h => ?_
    rw [List.cons.injEq, eq_comm (a := flags), flagByte_eq_iff] at h
    exact hge h.1.1

theorem encodeCount_eq_ok_iff {table : Table} {width count : Nat} {bytes : List UInt8} :
    encodeCount table width count = .ok bytes ↔ count < span width ∧ bytes = bigEndian width count := by
  unfold encodeCount
  exact ite_eq_ok_iff

/-- What a table writes is what its reader parses. -/
theorem encodeTable_eq_ok_iff {α : Type} {table : Table} {entry : α → Encoded} {as : List α}
    {bytes : List UInt8} :
    encodeTable table entry as = .ok bytes ↔ TableBytes (fun a xs => entry a = .ok xs) as bytes := by
  simp only [encodeTable, bind_eq_ok_iff, encodeCount_eq_ok_iff, mapM_eq_ok_iff]
  refine ⟨?_, ?_⟩
  · intro h'
    rcases h' with ⟨_, ⟨hlt, rfl⟩, parts, hparts, h⟩
    cases h
    exact ⟨hlt, parts, hparts, rfl⟩
  · intro h'
    rcases h' with ⟨hlt, parts, hparts, rfl⟩
    exact ⟨_, ⟨hlt, rfl⟩, parts, hparts, rfl⟩

theorem encodeTable_ok_eq_ok_iff {α : Type} {table : Table} {entry : α → List UInt8} {as : List α}
    {bytes : List UInt8} :
    encodeTable table (fun a => .ok (entry a)) as = .ok bytes ↔
      TableBytes (fun a xs => xs = entry a) as bytes := by
  have hentry : (fun a xs => (.ok (entry a) : Encoded) = .ok xs) = fun a xs => xs = entry a := by
    funext a xs
    rw [Except.ok.injEq]
    exact propext eq_comm
  rw [encodeTable_eq_ok_iff, hentry]

theorem one_le_length_encodeName {s : String} {bytes : List UInt8} (h : encodeName s = .ok bytes) :
    1 ≤ bytes.length := by
  obtain ⟨-, rfl⟩ := encodeName_eq_ok_iff.1 h
  exact Nat.succ_le_succ (Nat.zero_le _)

theorem encodeNode_eq_ok_iff {n : Node} {bytes : List UInt8} :
    encodeNode n = .ok bytes ↔
      ∃ name inputs outputs, encodeName n.name = .ok name ∧
        TableBytes (fun i xs => xs = encodeInput i) n.inputs inputs ∧
        TableBytes (fun r xs => xs = [encodeRate r]) n.outputs.toList outputs ∧
        bytes = name ++ encodeRate n.rate :: (inputs ++ outputs ++ [encodeFlags n]) := by
  simp only [encodeNode, bind_eq_ok_iff, encodeTable_ok_eq_ok_iff]
  refine ⟨?_, ?_⟩
  · intro h'
    rcases h' with ⟨name, hname, inputs, hin, outputs, hout, h⟩
    cases h
    exact ⟨name, inputs, outputs, hname, hin, hout, rfl⟩
  · intro h'
    rcases h' with ⟨name, inputs, outputs, hname, hin, hout, rfl⟩
    exact ⟨name, hname, inputs, hin, outputs, hout, rfl⟩

theorem parses_decodeNode (guarded : Bool) :
    Parses (decodeNode guarded) fun n bytes => (∀ i ∈ n.inputs, i.Fits) ∧ encodeNode n = .ok bytes := by
  have hinputs : Parses (decodeTable guarded .inputs 5 decodeInput) _ :=
    parses_decodeTable .inputs parses_decodeInput fun i bytes h => by
      rw [h.2]
      cases i <;> simp [encodeInput, length_bigEndian]
  have houtputs : Parses (decodeTable guarded .outputs 1 decodeRate) _ :=
    parses_decodeTable .outputs parses_decodeRate fun r bytes h => by rw [h, List.length_singleton]
  refine (parses_decodeName.bind fun name => parses_decodeRate.bind fun rate =>
    hinputs.bind fun inputs => houtputs.bind fun outputs => parses_decodeFlags.map fun p =>
      Node.mk name rate inputs outputs.toArray p.1 p.2).congr fun n bytes => ?_
  simp only [tableBytes_and]
  rw [encodeNode_eq_ok_iff]
  refine ⟨?_, ?_⟩
  · intro h'
    rcases h' with ⟨name, xs, _, hname, ⟨rate, _, _, rfl, ⟨inputs, is, _, ⟨hfits, hin⟩, ⟨outputs, os, _, hout,
      ⟨p, rfl, rfl⟩, rfl⟩, rfl⟩, rfl⟩, rfl⟩
    exact ⟨hfits, xs, is, os, hname, hin, hout, by simp [encodeFlags, flagByte]⟩
  · intro h'
    rcases h' with ⟨hfits, xs, is, os, hname, hin, hout, rfl⟩
    refine ⟨n.name, xs, _, hname, ⟨n.rate, _, _, rfl, ⟨n.inputs, is, _, ⟨hfits, hin⟩,
      ⟨n.outputs.toList, os, _, hout, ⟨(n.sideEffect, n.doneFlag), rfl, rfl⟩, rfl⟩, rfl⟩, rfl⟩, ?_⟩
    simp [encodeFlags, flagByte]

end SoundGraph.Wire
