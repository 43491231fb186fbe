import Mathlib.Data.Nat.Digits.Defs
import Mos6502.Proofs.Overflow

/-!
# Numbers of several bytes

A list of bytes, the lowest first, stands for a number in base 256. In two's complement a list in
the upper half of its range stands for that number less the size of the range; the top byte alone
carries the sign.
-/

namespace Mos6502

/-- The number that bytes stand for, the lowest byte first. -/
def littleEndian (bs : List UInt8) : Nat := Nat.ofDigits 256 (bs.map UInt8.toNat)

/-- The number that bytes stand for in two's complement. -/
def twosComplement (bs : List UInt8) : Int := (littleEndian bs : Int).bmod (256 ^ bs.length)

/-- The number is none of `n` bytes in two's complement. -/
def outsideBytes (n : Nat) (k : Int) : Bool := k < -2 ^ (8 * n - 1) || 2 ^ (8 * n - 1) - 1 < k

@[simp] theorem littleEndian_nil : littleEndian [] = 0 := rfl

@[simp] theorem littleEndian_cons (b : UInt8) (bs : List UInt8) :
    littleEndian (b :: bs) = b.toNat + 256 * littleEndian bs :=
  Nat.ofDigits_cons

theorem digit_lt (bs : List UInt8) : ∀ d ∈ bs.map UInt8.toNat, d < 256 := by
  simp only [List.mem_map]
  rintro d ⟨b, -, rfl⟩
  exact b.toNat_lt

theorem littleEndian_lt (bs : List UInt8) : littleEndian bs < 256 ^ bs.length := by
  simpa [littleEndian] using Nat.ofDigits_lt_base_pow_length (by decide) (digit_lt bs)

/-- Equally many bytes that stand for one number are the same bytes. -/
theorem littleEndian_inj {as bs : List UInt8} (hlength : as.length = bs.length)
    (h : littleEndian as = littleEndian bs) : as = bs := by
  have hdigits : as.map UInt8.toNat = bs.map UInt8.toNat :=
    Nat.ofDigits_inj_of_len_eq (by decide) (by simpa using hlength) (digit_lt as) (digit_lt bs) h
  exact (List.map_inj_right fun _ _ => UInt8.toNat_inj.mp).mp hdigits

/-- Two's complement by the half of the range in which the number lies. -/
theorem twosComplement_eq (bs : List UInt8) :
    twosComplement bs =
      if 2 * littleEndian bs < 256 ^ bs.length then (littleEndian bs : Int)
      else littleEndian bs - (256 ^ bs.length : Nat) := by
  have hlt := littleEndian_lt bs
  have hmod : (littleEndian bs : Int) % (256 ^ bs.length : Nat) = littleEndian bs :=
    Int.emod_eq_of_lt (by omega) (by omega)
  rw [twosComplement, Int.bmod, hmod]
  split <;> split <;> omega

theorem twosComplement_singleton (b : UInt8) : twosComplement [b] = signed b := by
  simp [twosComplement, signed_eq_bmod]

/-- The low bytes have no sign. -/
theorem twosComplement_cons (b : UInt8) {bs : List UInt8} (h : bs ≠ []) :
    twosComplement (b :: bs) = b.toNat + 256 * twosComplement bs := by
  obtain ⟨n, hn⟩ : ∃ n, bs.length = n + 1 := Nat.exists_eq_succ_of_ne_zero (by simpa using h)
  have hb := b.toNat_lt
  rw [twosComplement_eq, twosComplement_eq, littleEndian_cons, List.length_cons, hn,
    Nat.pow_succ 256 (n + 1), Nat.pow_succ]
  split <;> split <;> omega

/-- Whether a number fits does not depend on its lowest byte. -/
theorem outsideBytes_succ {n : Nat} (hn : n ≠ 0) {r : Nat} (hr : r < 256) (k : Int) :
    outsideBytes (n + 1) (r + 256 * k) = outsideBytes n k := by
  have hpow : (2 : Int) ^ (8 * (n + 1) - 1) = 256 * 2 ^ (8 * n - 1) := by
    rw [show 8 * (n + 1) - 1 = 8 + (8 * n - 1) by omega, Int.pow_add]
    rfl
  rw [outsideBytes, outsideBytes, hpow, Bool.eq_iff_iff]
  simp only [Bool.or_eq_true, decide_eq_true_eq]
  omega

section Complement

theorem toNat_complement (v : UInt8) : (v ^^^ 0xFF).toNat = 255 - v.toNat :=
  forall_byte (P := fun v => (v ^^^ 0xFF).toNat = 255 - v.toNat) (by decide +kernel) v

theorem signed_complement (v : UInt8) : signed (v ^^^ 0xFF) = -1 - signed v := by
  have hv := v.toNat_lt
  rw [signed_eq_bmod, signed_eq_bmod, toNat_complement]
  simp only [Int.bmod]
  omega

/-- The complement of every byte. -/
def complement (bs : List UInt8) : List UInt8 := bs.map (· ^^^ 0xFF)

theorem littleEndian_complement (bs : List UInt8) :
    littleEndian (complement bs) + littleEndian bs + 1 = 256 ^ bs.length := by
  induction bs with
  | nil => rfl
  | cons b bs ih =>
    have hb := b.toNat_lt
    have hrest : complement (b :: bs) = (b ^^^ 0xFF) :: complement bs := rfl
    rw [hrest, littleEndian_cons, littleEndian_cons, toNat_complement, List.length_cons,
      Nat.pow_succ]
    omega

theorem twosComplement_complement {bs : List UInt8} (h : bs ≠ []) :
    twosComplement (complement bs) = -1 - twosComplement bs := by
  obtain ⟨n, hn⟩ : ∃ n, bs.length = n + 1 := Nat.exists_eq_succ_of_ne_zero (by simpa using h)
  have hsum := littleEndian_complement bs
  have hlength : (complement bs).length = bs.length := List.length_map _
  rw [twosComplement_eq, twosComplement_eq, hlength]
  rw [hn, Nat.pow_succ] at hsum ⊢
  split <;> split <;> omega

end Complement

end Mos6502
