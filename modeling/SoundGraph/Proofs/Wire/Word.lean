import Mathlib.Tactic.Ring
import SoundGraph.Wire.Word

/-! Words and their bytes determine each other: every list of bytes is the word of its value. -/

namespace SoundGraph.Wire

theorem span_pos (width : Nat) : 0 < span width := by
  induction width with
  | zero => exact Nat.zero_lt_one
  | succ width ih => exact Nat.mul_pos (by decide) ih

theorem foldl_bytes (bytes : List UInt8) (acc : Nat) :
    bytes.foldl (fun n b => 256 * n + b.toNat) acc = acc * span bytes.length + ofBigEndian bytes := by
  induction bytes generalizing acc with
  | nil => simp [span, ofBigEndian]
  | cons b bytes ih =>
    rw [ofBigEndian, List.foldl_cons, List.foldl_cons, ih, ih (256 * 0 + b.toNat), List.length_cons, span]
    ring

theorem ofBigEndian_cons (b : UInt8) (bytes : List UInt8) :
    ofBigEndian (b :: bytes) = b.toNat * span bytes.length + ofBigEndian bytes := by
  rw [ofBigEndian, List.foldl_cons, Nat.mul_zero, Nat.zero_add, foldl_bytes]

theorem ofBigEndian_lt (bytes : List UInt8) : ofBigEndian bytes < span bytes.length := by
  induction bytes with
  | nil => exact Nat.zero_lt_one
  | cons b bytes ih =>
    have hb : (b.toNat + 1) * span bytes.length ≤ 256 * span bytes.length :=
      Nat.mul_le_mul_right _ b.toNat_lt
    rw [Nat.add_mul, Nat.one_mul] at hb
    rw [ofBigEndian_cons, List.length_cons, span]
    omega

/-- A word keeps the low bytes only. -/
theorem bigEndian_add (width k n : Nat) : bigEndian width (k * span width + n) = bigEndian width n := by
  induction width generalizing k with
  | zero => rfl
  | succ width ih =>
    have hk : k * span (width + 1) = 256 * k * span width := by
      rw [span]
      ring
    have hhigh : (256 * k * span width + n) / span width = n / span width + 256 * k := by
      rw [Nat.add_comm, Nat.add_mul_div_right _ _ (span_pos width)]
    have hbyte : UInt8.ofNat (n / span width + 256 * k) = UInt8.ofNat (n / span width) := by
      apply UInt8.toNat_inj.1
      rw [UInt8.toNat_ofNat', UInt8.toNat_ofNat', Nat.add_mul_mod_self_left]
    rw [bigEndian, bigEndian, hk, ih, hhigh, hbyte]

theorem bigEndian_ofBigEndian (bytes : List UInt8) :
    bigEndian bytes.length (ofBigEndian bytes) = bytes := by
  induction bytes with
  | nil => rfl
  | cons b bytes ih =>
    have hhigh : (b.toNat * span bytes.length + ofBigEndian bytes) / span bytes.length = b.toNat := by
      rw [Nat.add_comm, Nat.add_mul_div_right _ _ (span_pos _),
        Nat.div_eq_of_lt (ofBigEndian_lt bytes), Nat.zero_add]
    rw [List.length_cons, bigEndian, ofBigEndian_cons, hhigh, bigEndian_add, ih, UInt8.ofNat_toNat]

/-- The value of a word is the one number that fits and has its bytes. -/
theorem ofBigEndian_eq_iff {width n : Nat} {bytes : List UInt8} (h : bytes.length = width) :
    ofBigEndian bytes = n ↔ n < span width ∧ bytes = bigEndian width n := by
  subst h
  refine ⟨?_, ?_⟩
  · intro h'
    subst h'
    exact ⟨ofBigEndian_lt bytes, (bigEndian_ofBigEndian bytes).symm⟩
  · intro h'
    rcases h' with ⟨hn, hbytes⟩
    rw [hbytes, ofBigEndian_bigEndian hn]

end SoundGraph.Wire
