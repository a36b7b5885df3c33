/-!
# Numbers as bytes

A number as a given count of bytes, the least significant one first.
`ofLittleEndian` reads what `littleEndian` writes, and `littleEndian` writes what
`ofLittleEndian` has read, so the two are inverse on numbers below `byteSpan width`
and lists of `width` bytes.
-/

namespace StellarWind

/-- The last `width` bytes of a number, least significant first. -/
def littleEndian : Nat → Nat → List UInt8
  | 0, _ => []
  | width + 1, n => n.toUInt8 :: littleEndian width (n / 256)

/-- The number whose bytes are given, least significant first. -/
def ofLittleEndian : List UInt8 → Nat
  | [] => 0
  | b :: bs => b.toNat + 256 * ofLittleEndian bs

/-- The number of values of `width` bytes. -/
def byteSpan : Nat → Nat
  | 0 => 1
  | width + 1 => 256 * byteSpan width

@[simp] theorem length_littleEndian (width n : Nat) :
    (littleEndian width n).length = width := by
  induction width generalizing n with
  | zero => rfl
  | succ width ih => simp [littleEndian, ih]

theorem ofLittleEndian_littleEndian (width n : Nat) :
    ofLittleEndian (littleEndian width n) = n % byteSpan width := by
  induction width generalizing n with
  | zero => simp [littleEndian, ofLittleEndian, byteSpan, Nat.mod_one]
  | succ width ih =>
    have h : n.toUInt8.toNat = n % 256 := by simp [Nat.toUInt8]
    rw [littleEndian, ofLittleEndian, ih, h, byteSpan, Nat.mod_mul]

theorem ofLittleEndian_lt (bs : List UInt8) : ofLittleEndian bs < byteSpan bs.length := by
  induction bs with
  | nil => simp [ofLittleEndian, byteSpan]
  | cons b bs ih =>
    have hb : b.toNat < 256 := b.toNat_lt
    simp only [ofLittleEndian, List.length_cons, byteSpan]
    omega

theorem littleEndian_ofLittleEndian (bs : List UInt8) :
    littleEndian bs.length (ofLittleEndian bs) = bs := by
  induction bs with
  | nil => rfl
  | cons b bs ih =>
    have hb : b.toNat < 256 := b.toNat_lt
    have hdiv : (b.toNat + 256 * ofLittleEndian bs) / 256 = ofLittleEndian bs := by omega
    have hhead : (b.toNat + 256 * ofLittleEndian bs).toUInt8 = b := by
      apply UInt8.toNat_inj.1
      simp [Nat.toUInt8]
    simp only [ofLittleEndian, List.length_cons, littleEndian, hdiv, ih, hhead]

end StellarWind
