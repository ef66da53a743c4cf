/-! Unsigned words in big-endian bytes. -/

namespace SoundGraph.Wire

/-- How many numbers a word of so many bytes tells apart. -/
def span : Nat → Nat
  | 0 => 1
  | width + 1 => 256 * span width

/-- The low `8 · width` bits of `n`, high byte first. -/
def bigEndian : Nat → Nat → List UInt8
  | 0, _ => []
  | width + 1, n => UInt8.ofNat (n / span width) :: bigEndian width n

def ofBigEndian (bytes : List UInt8) : Nat := bytes.foldl (fun n b => 256 * n + b.toNat) 0

theorem length_bigEndian (width n : Nat) : (bigEndian width n).length = width := by
  induction width with
  | zero => rfl
  | succ width ih => rw [bigEndian, List.length_cons, ih]

theorem foldl_bigEndian (width n acc : Nat) :
    (bigEndian width n).foldl (fun n b => 256 * n + b.toNat) acc =
      span width * acc + n % span width := by
  induction width generalizing acc with
  | zero =>
    rw [bigEndian, List.foldl_nil, span, Nat.mod_one]
    omega
  | succ width ih =>
    have hb : (UInt8.ofNat (n / span width)).toNat = n / span width % 256 := UInt8.toNat_ofNat'
    have hm : n % (256 * span width) = n % span width + span width * (n / span width % 256) := by
      rw [Nat.mul_comm, Nat.mod_mul]
    rw [bigEndian, List.foldl_cons, ih, hb, span, hm, Nat.mul_add]
    have : span width * (256 * acc) = 256 * span width * acc := by
      rw [← Nat.mul_assoc, Nat.mul_comm (span width) 256]
    omega

/-- A word that fits its width reads back. -/
theorem ofBigEndian_bigEndian {width n : Nat} (h : n < span width) :
    ofBigEndian (bigEndian width n) = n := by
  rw [ofBigEndian, foldl_bigEndian, Nat.mul_zero, Nat.zero_add, Nat.mod_eq_of_lt h]

/-- A four-byte word read as a signed number. -/
def signed32 (n : Nat) : Int := if n < 0x80000000 then n else (n : Int) - 0x100000000

end SoundGraph.Wire
