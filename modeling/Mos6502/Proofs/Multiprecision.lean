import Mathlib.Tactic.Zify
import Mos6502.Proofs.LittleEndian

/-!
# Arithmetic on numbers of several bytes

Additions in a row, each with the carry that the one before left, add numbers of any length, and
subtractions in a row subtract them. The last carry is the carry of the whole, and the last overflow
says that the whole left its range in two's complement, whatever the overflows on the way were. A
subtraction is the addition of the complement, and a comparison is a subtraction that keeps only
carry, zero and negative.
-/

namespace Mos6502.State

/-- Set A to the first byte of each pair in turn and apply the operation to the second. The answer
is the bytes left in A and the registers at the end. -/
def chain (op : State → UInt8 → State) (s : State) : List (UInt8 × UInt8) → List UInt8 × State
  | [] => ([], s)
  | p :: ps =>
    let t := op { s with a := p.1 } p.2
    let rest := chain op t ps
    (t.a :: rest.1, rest.2)

section Chain

variable (op : State → UInt8 → State) (s : State) (p : UInt8 × UInt8) (ps : List (UInt8 × UInt8))

@[simp] theorem chain_nil : s.chain op [] = ([], s) := rfl

theorem chain_cons :
    s.chain op (p :: ps) =
      ((op { s with a := p.1 } p.2).a :: ((op { s with a := p.1 } p.2).chain op ps).1,
        ((op { s with a := p.1 } p.2).chain op ps).2) := rfl

theorem length_chain : (s.chain op ps).1.length = ps.length := by
  induction ps generalizing s with
  | nil => rfl
  | cons p ps ih => rw [chain_cons, List.length_cons, List.length_cons, ih]

end Chain

/-- One addition is exact: the byte in A and the carry make up the sum. -/
theorem adc_value (s : State) (x y : UInt8) :
    ({ s with a := x }.adc y).a.toNat + 256 * ({ s with a := x }.adc y).status.carry.toNat =
      x.toNat + y.toNat + s.status.carry.toNat := by
  have hx := x.toNat_lt
  have hy := y.toNat_lt
  have hc : s.status.carry.toNat ≤ 1 := Bool.toNat_le _
  simp only [adc_eq, UInt8.toNat_ofNat']
  by_cases hcarry : 255 < x.toNat + y.toNat + s.status.carry.toNat <;>
    simp only [hcarry, decide_true, decide_false, Bool.toNat_true, Bool.toNat_false] <;> omega

theorem adc_overflow (s : State) (x y : UInt8) :
    ({ s with a := x }.adc y).status.overflow =
      outsideByte (signed x + signed y + s.status.carry.toNat) := by
  rw [adc_eq]

/-- A subtraction is the addition of the complement. -/
theorem sbc_eq_adc (s : State) (v : UInt8) : s.sbc v = s.adc (v ^^^ 0xFF) := by
  have hv := v.toNat_lt
  have ha := s.a.toNat_lt
  have hc : s.status.carry.toNat ≤ 1 := Bool.toNat_le _
  have hbyte : UInt8.ofInt (s.a.toNat - v.toNat - (1 - s.status.carry.toNat)) =
      UInt8.ofNat (s.a.toNat + (255 - v.toNat) + s.status.carry.toNat) := by
    apply UInt8.toNat_inj.mp
    rw [toNat_ofInt, UInt8.toNat_ofNat']
    omega
  have hcarry : decide (0 ≤ (s.a.toNat : Int) - v.toNat - (1 - s.status.carry.toNat)) =
      decide (255 < s.a.toNat + (255 - v.toNat) + s.status.carry.toNat) := by
    rw [decide_eq_decide]
    omega
  have hsigned : signed s.a - signed v - (1 - s.status.carry.toNat) =
      signed s.a + (-1 - signed v) + s.status.carry.toNat := by
    omega
  simp only [sbc_eq, adc_eq, toNat_complement, signed_complement, hbyte, hcarry, hsigned]

/-- A comparison leaves the carry, zero and negative of a subtraction without a borrow. -/
theorem compare_eq_sbc (s : State) (r v : UInt8) :
    s.compare r v =
      let t := { s with a := r, status := { s.status with carry := true } }.sbc v
      { s with status := { s.status with
          carry := t.status.carry
          zero := t.status.zero
          negative := t.status.negative } } := by
  rw [compare_eq, sbc_eq]
  simp [Status.withResult, ofInt_sub, sub_beq_zero]

/-- Additions in a row are exact. -/
theorem chain_adc_value (s : State) (ps : List (UInt8 × UInt8)) :
    littleEndian (s.chain adc ps).1 + 256 ^ ps.length * (s.chain adc ps).2.status.carry.toNat =
      littleEndian (ps.map Prod.fst) + littleEndian (ps.map Prod.snd) + s.status.carry.toNat := by
  induction ps generalizing s with
  | nil => simp
  | cons p ps ih =>
    have hfirst := s.adc_value p.1 p.2
    have hrest := ih ({ s with a := p.1 }.adc p.2)
    have hpow : ∀ k, 256 ^ (ps.length + 1) * k = 256 * (256 ^ ps.length * k) := by
      intro k
      rw [Nat.pow_succ', Nat.mul_assoc]
    simp only [chain_cons, List.map_cons, List.length_cons, littleEndian_cons, hpow]
    omega

/-- The last addition alone decides whether the sum left its range. -/
theorem chain_adc_overflow (s : State) {ps : List (UInt8 × UInt8)} (h : ps ≠ []) :
    (s.chain adc ps).2.status.overflow =
      outsideBytes ps.length
        (twosComplement (ps.map Prod.fst) + twosComplement (ps.map Prod.snd) +
          s.status.carry.toNat) := by
  induction ps generalizing s with
  | nil => exact absurd rfl h
  | cons p ps ih =>
    rw [chain_cons]
    by_cases hps : ps = []
    · subst hps
      simp only [chain_nil, adc_overflow, List.map_cons, List.map_nil, twosComplement_singleton]
      rfl
    · have hfirst := s.adc_value p.1 p.2
      have hmap : ∀ f : UInt8 × UInt8 → UInt8, ps.map f ≠ [] := fun f => by simpa using hps
      have hvalue :
          twosComplement ((p :: ps).map Prod.fst) + twosComplement ((p :: ps).map Prod.snd) +
              s.status.carry.toNat =
            ({ s with a := p.1 }.adc p.2).a.toNat + 256 *
              (twosComplement (ps.map Prod.fst) + twosComplement (ps.map Prod.snd) +
                ({ s with a := p.1 }.adc p.2).status.carry.toNat) := by
        rw [List.map_cons, List.map_cons, twosComplement_cons _ (hmap _),
          twosComplement_cons _ (hmap _)]
        omega
      have hlength : ps.length ≠ 0 := by simpa using hps
      rw [ih _ hps, hvalue, List.length_cons, outsideBytes_succ hlength (UInt8.toNat_lt _)]

section Subtraction

/-- The pair with the complement of its second byte. -/
def complementSecond (p : UInt8 × UInt8) : UInt8 × UInt8 := (p.1, p.2 ^^^ 0xFF)

theorem map_fst_complementSecond (ps : List (UInt8 × UInt8)) :
    (ps.map complementSecond).map Prod.fst = ps.map Prod.fst := by
  rw [List.map_map]
  rfl

theorem map_snd_complementSecond (ps : List (UInt8 × UInt8)) :
    (ps.map complementSecond).map Prod.snd = complement (ps.map Prod.snd) := by
  rw [complement, List.map_map, List.map_map]
  rfl

/-- Subtractions in a row are additions of the complements. -/
theorem chain_sbc (s : State) (ps : List (UInt8 × UInt8)) :
    s.chain sbc ps = s.chain adc (ps.map complementSecond) := by
  induction ps generalizing s with
  | nil => rfl
  | cons p ps ih =>
    rw [List.map_cons, chain_cons, chain_cons, ih, sbc_eq_adc]
    rfl

/-- Subtractions in a row are exact; a last carry that is clear is a borrow from beyond the top. -/
theorem chain_sbc_value (s : State) (ps : List (UInt8 × UInt8)) :
    (littleEndian (s.chain sbc ps).1 : Int) -
        256 ^ ps.length * (1 - (s.chain sbc ps).2.status.carry.toNat) =
      littleEndian (ps.map Prod.fst) - littleEndian (ps.map Prod.snd) -
        (1 - s.status.carry.toNat) := by
  have hsum := s.chain_adc_value (ps.map complementSecond)
  have hcomplement := littleEndian_complement (ps.map Prod.snd)
  rw [← chain_sbc, map_fst_complementSecond, map_snd_complementSecond, List.length_map] at hsum
  rw [List.length_map] at hcomplement
  zify at hsum hcomplement
  rw [Int.mul_sub, Int.mul_one]
  omega

theorem chain_sbc_overflow (s : State) {ps : List (UInt8 × UInt8)} (h : ps ≠ []) :
    (s.chain sbc ps).2.status.overflow =
      outsideBytes ps.length
        (twosComplement (ps.map Prod.fst) - twosComplement (ps.map Prod.snd) -
          (1 - s.status.carry.toNat)) := by
  have hne : ps.map complementSecond ≠ [] := by simpa using h
  have hsnd : ps.map Prod.snd ≠ [] := by simpa using h
  rw [chain_sbc, chain_adc_overflow s hne, map_fst_complementSecond, map_snd_complementSecond,
    List.length_map, twosComplement_complement hsnd]
  congr 1
  omega

end Subtraction

/-- Arithmetic on numbers of `n` bytes is exact. Additions in a row of the bytes of `xs` and `ys`
leave the bytes and the carry of the sum, and overflow says that the sum in two's complement is out
of range; subtractions in a row do the same for the difference. On any registers a subtraction is
the addition of the complement, and a comparison is a subtraction from `r` with the carry set of
which only carry, zero and negative are kept. -/
theorem multiprecision_exact (s : State) {n : Nat} (hn : 1 ≤ n) {xs ys : List UInt8}
    (hx : xs.length = n) (hy : ys.length = n) :
    let c := s.status.carry.toNat
    let sum := s.chain adc (xs.zip ys)
    let difference := s.chain sbc (xs.zip ys)
    (sum.1.length = n ∧
      littleEndian sum.1 + 256 ^ n * sum.2.status.carry.toNat =
        littleEndian xs + littleEndian ys + c ∧
      sum.2.status.overflow = outsideBytes n (twosComplement xs + twosComplement ys + c)) ∧
    (difference.1.length = n ∧
      (littleEndian difference.1 : Int) - 256 ^ n * (1 - difference.2.status.carry.toNat) =
        littleEndian xs - littleEndian ys - (1 - c) ∧
      difference.2.status.overflow =
        outsideBytes n (twosComplement xs - twosComplement ys - (1 - c))) ∧
    (∀ (t : State) (v : UInt8), t.sbc v = t.adc (v ^^^ 0xFF)) ∧
    ∀ (t : State) (r v : UInt8),
      let u := { t with a := r, status := { t.status with carry := true } }.sbc v
      t.compare r v = { t with status := { t.status with
        carry := u.status.carry
        zero := u.status.zero
        negative := u.status.negative } } := by
  intro c sum difference
  have hzip : (xs.zip ys).length = n := by rw [List.length_zip, hx, hy, Nat.min_self]
  have hfst : (xs.zip ys).map Prod.fst = xs := List.map_fst_zip (by omega)
  have hsnd : (xs.zip ys).map Prod.snd = ys := List.map_snd_zip (by omega)
  have hne : xs.zip ys ≠ [] := List.ne_nil_of_length_pos (by omega)
  refine ⟨⟨?_, ?_, ?_⟩, ⟨?_, ?_, ?_⟩, sbc_eq_adc, compare_eq_sbc⟩
  · exact (length_chain _ _ _).trans hzip
  · simpa only [hzip, hfst, hsnd] using s.chain_adc_value (xs.zip ys)
  · simpa only [hzip, hfst, hsnd] using s.chain_adc_overflow hne
  · exact (length_chain _ _ _).trans hzip
  · simpa only [hzip, hfst, hsnd] using s.chain_sbc_value (xs.zip ys)
  · simpa only [hzip, hfst, hsnd] using s.chain_sbc_overflow hne

/-- Registers with the carry set. -/
def carrying : State := { zero with status := { Status.clear with carry := true } }

/-- $7FFF + 0 + 1 and $8000 - 1 both cross the sign. -/
theorem multiprecision_exact_carrying :
    let sum := carrying.chain adc ([0xFF, 0x7F].zip [0x00, 0x00])
    let difference := carrying.chain sbc ([0x00, 0x80].zip [0x01, 0x00])
    (littleEndian sum.1 + 256 ^ 2 * sum.2.status.carry.toNat = 0x8000 ∧
      sum.2.status.overflow = true) ∧
    ((littleEndian difference.1 : Int) - 256 ^ 2 * (1 - difference.2.status.carry.toNat) = 0x7FFF ∧
      difference.2.status.overflow = true) := by
  have hlength : ∀ low high : UInt8, [low, high].length = 2 := fun _ _ => rfl
  obtain ⟨⟨-, hsum, hsigned⟩, -⟩ := multiprecision_exact carrying (n := 2) (by decide)
    (hlength 0xFF 0x7F) (hlength 0x00 0x00)
  obtain ⟨-, ⟨-, hdifference, hborrowed⟩, -⟩ := multiprecision_exact carrying (n := 2) (by decide)
    (hlength 0x00 0x80) (hlength 0x01 0x00)
  exact ⟨⟨hsum, hsigned.trans (by decide)⟩, hdifference, hborrowed.trans (by decide)⟩

end Mos6502.State
