import Mos6502.Proofs.Effects

/-!
# Carry and overflow as numbers

The two predicates work with masks and exclusive ors on 32-bit intermediates. On every intermediate
the carry is that of the low bytes as numbers from 0 to 255, and the overflow says whether their sum
or difference, as numbers from -128 to 127, leaves that range. The addition and the subtraction of
the processor follow.
-/

namespace Mos6502

/-- The number that a byte stands for in two's complement. -/
def signed (v : UInt8) : Int := v.toInt8.toInt

/-- The number is no byte in two's complement. -/
def outsideByte (n : Int) : Bool := n < -128 || 127 < n

theorem toInt_emod (n : Int32) : n.toInt % 256 = (n.toBitVec.toNat % 256 : Nat) := by
  have hn := n.toBitVec.isLt
  rw [Int32.toInt, BitVec.toInt_eq_toNat_bmod]
  simp only [Int.bmod]
  omega

/-- The low byte of an intermediate is its value modulo 256. -/
theorem toInt_masked (n : Int32) : (masked n).toInt = n.toInt % 256 := by
  have hlow : (masked n).toBitVec.toNat = n.toBitVec.toNat % 256 := by
    simp only [masked, Int32.toBitVec_and, BitVec.toNat_and]
    exact Nat.and_two_pow_sub_one_eq_mod _ 8
  rw [toInt_emod, Int32.toInt, BitVec.toInt_eq_toNat_bmod, hlow]
  simp only [Int.bmod]
  omega

/-- The sums of low bytes stay far inside 32 bits, so none of them wraps. -/
theorem toInt_masked_add (a b k : Int32) :
    (masked a + masked b).toInt = a.toInt % 256 + b.toInt % 256 ∧
      (masked a + masked b + masked k).toInt = a.toInt % 256 + b.toInt % 256 + k.toInt % 256 := by
  constructor <;> simp only [Int32.toInt_add, toInt_masked, Int.bmod] <;> omega

/-- Nor does a difference of low bytes, which can be negative. -/
theorem toInt_masked_sub (a b k : Int32) :
    (masked a - masked b).toInt = a.toInt % 256 - b.toInt % 256 ∧
      (masked a - masked b - masked k).toInt = a.toInt % 256 - b.toInt % 256 - k.toInt % 256 := by
  constructor <;> simp only [Int32.toInt_sub, toInt_masked, Int.bmod] <;> omega

theorem carryOut_add (a b k : Int32) :
    carryOut a b k true = decide (255 < a.toInt % 256 + b.toInt % 256 + k.toInt % 256) := by
  have hmax : (0xFF : Int32).toInt = 255 := rfl
  have hsum := (toInt_masked_add a b k).2
  simp only [carryOut, ↓reduceIte, gt_iff_lt, Int32.lt_iff_toInt_lt, hsum, hmax]

theorem carryOut_sub (a b k : Int32) :
    carryOut a b k false = decide (0 ≤ a.toInt % 256 - b.toInt % 256 - k.toInt % 256) := by
  have hzero : (0 : Int32).toInt = 0 := rfl
  have hdifference := (toInt_masked_sub a b k).2
  simp only [carryOut, Bool.false_eq_true, ↓reduceIte, ge_iff_le, Int32.le_iff_toInt_le,
    hdifference, hzero]

/-- Bit 7 of an intermediate is the sign of its low byte. -/
theorem getLsbD_seven (n : Int32) : n.toBitVec.getLsbD 7 = decide (128 ≤ n.toInt % 256) := by
  rw [toInt_emod, BitVec.getLsbD, Nat.testBit_eq_decide_div_mod_eq, decide_eq_decide]
  omega

/-- Masking bit 7 leaves nothing where that bit is clear. -/
theorem and_signMask_eq_zero (n : Int32) : (n &&& 0x80 == 0) = !n.toBitVec.getLsbD 7 := by
  have hmask : (0x80 : Int32).toBitVec = BitVec.twoPow 32 7 := rfl
  have hand : (n &&& 0x80).toBitVec =
      if n.toBitVec.getLsbD 7 then BitVec.twoPow 32 7 else 0#32 := by
    rw [Int32.toBitVec_and, hmask, BitVec.and_twoPow]
  rw [Bool.eq_iff_iff, beq_iff_eq, ← Int32.toBitVec_inj, hand]
  cases n.toBitVec.getLsbD 7 <;> decide

/-- The exclusive or of two intermediates has bit 7 clear when their low bytes have one sign. -/
theorem sameSign_eq (a b : Int32) :
    ((a ^^^ b) &&& 0x80 == 0) = decide (128 ≤ a.toInt % 256 ↔ 128 ≤ b.toInt % 256) := by
  rw [and_signMask_eq_zero, Int32.toBitVec_xor, BitVec.getLsbD_xor, getLsbD_seven, getLsbD_seven]
  by_cases ha : 128 ≤ a.toInt % 256 <;> by_cases hb : 128 ≤ b.toInt % 256 <;> simp [ha, hb]

/-- The overflow of an addition with a carry that comes in. -/
theorem addOverflows_eq {a b sum : Int32} {c : Int} (hc : c = 0 ∨ c = 1)
    (hsum : sum.toInt % 256 = (a.toInt + b.toInt + c) % 256) :
    addOverflows a b sum = outsideByte (a.toInt.bmod 256 + b.toInt.bmod 256 + c) := by
  rw [addOverflows, bne, sameSign_eq, sameSign_eq, outsideByte, Bool.eq_iff_iff]
  simp only [Bool.and_eq_true, Bool.not_eq_true', decide_eq_true_eq, decide_eq_false_iff_not,
    Bool.or_eq_true, Int.bmod]
  omega

/-- The overflow of a subtraction with a borrow that comes in. -/
theorem subOverflows_eq {a b difference : Int32} {c : Int} (hc : c = 0 ∨ c = 1)
    (hdifference : difference.toInt % 256 = (a.toInt - b.toInt - c) % 256) :
    subOverflows a b difference = outsideByte (a.toInt.bmod 256 - b.toInt.bmod 256 - c) := by
  rw [subOverflows, bne, bne, sameSign_eq, sameSign_eq, outsideByte, Bool.eq_iff_iff]
  simp only [Bool.and_eq_true, Bool.not_eq_true', decide_eq_true_eq, decide_eq_false_iff_not,
    Bool.or_eq_true, Int.bmod]
  omega

/-- Carry and overflow are right on the whole range of intermediates, negative and unmasked ones
included. The carry is that of the low bytes as numbers from 0 to 255, and no sum or difference on
the way to it wraps. With any result that agrees with the sum or the difference modulo 256, the
overflow says that the low bytes, as numbers from -128 to 127, have a sum or a difference that is no
such number. -/
theorem carry_and_overflow_exact (a b : Int32) :
    (∀ k : Int32,
      (carryOut a b k true ↔ 255 < a.toInt % 256 + b.toInt % 256 + k.toInt % 256) ∧
      (carryOut a b k false ↔ 0 ≤ a.toInt % 256 - b.toInt % 256 - k.toInt % 256) ∧
      (masked a + masked b).toInt = a.toInt % 256 + b.toInt % 256 ∧
      (masked a + masked b + masked k).toInt = a.toInt % 256 + b.toInt % 256 + k.toInt % 256 ∧
      (masked a - masked b).toInt = a.toInt % 256 - b.toInt % 256 ∧
      (masked a - masked b - masked k).toInt =
        a.toInt % 256 - b.toInt % 256 - k.toInt % 256) ∧
    ∀ (r : Int32) (c : Int), c = 0 ∨ c = 1 →
      (r.toInt % 256 = (a.toInt + b.toInt + c) % 256 →
        (addOverflows a b r ↔ outsideByte (a.toInt.bmod 256 + b.toInt.bmod 256 + c))) ∧
      (r.toInt % 256 = (a.toInt - b.toInt - c) % 256 →
        (subOverflows a b r ↔ outsideByte (a.toInt.bmod 256 - b.toInt.bmod 256 - c))) := by
  constructor
  · intro k
    obtain ⟨hsum, hcarried⟩ := toInt_masked_add a b k
    obtain ⟨hdifference, hborrowed⟩ := toInt_masked_sub a b k
    refine ⟨?_, ?_, hsum, hcarried, hdifference, hborrowed⟩
    · rw [carryOut_add, decide_eq_true_iff]
    · rw [carryOut_sub, decide_eq_true_iff]
  · intro r c hc
    constructor
    · intro hr
      rw [addOverflows_eq hc hr]
    · intro hr
      rw [subOverflows_eq hc hr]

/-- A sum that 32 bits cannot hold, and a difference of a small number and a negative one. -/
theorem carry_and_overflow_exact_wide :
    (carryOut 0x7FFFFFFF 0x7FFFFFFF 1 true ↔ (255 : Int) < 255 + 255 + 1) ∧
      (-1 : Int32).toInt % 256 =
        ((0x7FFFFFFF : Int32).toInt + (0x7FFFFFFF : Int32).toInt + 1) % 256 ∧
      addOverflows 0x7FFFFFFF 0x7FFFFFFF (-1) = false ∧
      (129 : Int32).toInt % 256 = ((3 : Int32).toInt - (-126 : Int32).toInt - 0) % 256 ∧
      subOverflows 3 (-126) 129 = true := by
  have hsum : (-1 : Int32).toInt % 256 =
      ((0x7FFFFFFF : Int32).toInt + (0x7FFFFFFF : Int32).toInt + 1) % 256 := by decide
  have hdifference :
      (129 : Int32).toInt % 256 = ((3 : Int32).toInt - (-126 : Int32).toInt - 0) % 256 := by decide
  obtain ⟨hcarry, hoverflow⟩ := carry_and_overflow_exact 0x7FFFFFFF 0x7FFFFFFF
  obtain ⟨-, hborrow⟩ := carry_and_overflow_exact 3 (-126)
  refine ⟨(hcarry 1).1, hsum, ?_, hdifference, ?_⟩
  · rw [Bool.eq_false_iff, Ne, (hoverflow (-1) 1 (.inr rfl)).1 hsum]
    decide
  · rw [(hborrow 129 0 (.inl rfl)).2 hdifference]
    decide

theorem toInt_widen (v : UInt8) : (widen v).toInt = v.toNat := by
  have hv := v.toNat_lt
  have hnat : (widen v).toBitVec.toNat = v.toNat := by simp [widen]
  rw [Int32.toInt, BitVec.toInt_eq_toNat_bmod, hnat]
  simp only [Int.bmod]
  omega

theorem signed_eq_bmod (v : UInt8) : signed v = (v.toNat : Int).bmod 256 := by
  rw [signed, Int8.toInt, BitVec.toInt_eq_toNat_bmod]
  rfl

theorem toNat_ofInt (n : Int) : (UInt8.ofInt n).toNat = (n % 256).toNat := by
  rw [UInt8.ofInt, UInt8.toNat_ofNat']
  omega

theorem ofInt_sub (a b : UInt8) : UInt8.ofInt (a.toNat - b.toNat) = a - b := by
  have ha := a.toNat_lt
  have hb := b.toNat_lt
  apply UInt8.toNat_inj.mp
  rw [toNat_ofInt, UInt8.toNat_sub]
  omega

/-- Equal bytes differ by 0. -/
theorem sub_beq_zero (a b : UInt8) : (a - b == 0) = decide (a = b) := by
  rw [Bool.eq_iff_iff, beq_iff_eq, decide_eq_true_eq]
  grind

theorem ofInt_toNat_add (v : UInt8) (n : Int) :
    UInt8.ofInt (v.toNat + n) = v + UInt8.ofInt n := by
  apply UInt8.toNat_inj.mp
  simp only [toNat_ofInt, UInt8.toNat_add]
  omega

section Bytes

variable (a b k : UInt8)

theorem carryOut_widen_add :
    carryOut (widen a) (widen b) (widen k) true = decide (255 < a.toNat + b.toNat + k.toNat) := by
  have ha := a.toNat_lt
  have hb := b.toNat_lt
  have hk := k.toNat_lt
  rw [carryOut_add, toInt_widen, toInt_widen, toInt_widen, decide_eq_decide]
  omega

theorem carryOut_widen_sub :
    carryOut (widen a) (widen b) (widen k) false =
      decide (0 ≤ (a.toNat : Int) - b.toNat - k.toNat) := by
  have ha := a.toNat_lt
  have hb := b.toNat_lt
  have hk := k.toNat_lt
  rw [carryOut_sub, toInt_widen, toInt_widen, toInt_widen, decide_eq_decide]
  omega

variable {k}

theorem addOverflows_widen (hk : k.toNat = 0 ∨ k.toNat = 1) :
    addOverflows (widen a) (widen b) (widen (a + b + k)) =
      outsideByte (signed a + signed b + k.toNat) := by
  have hsum : (widen (a + b + k)).toInt % 256 =
      ((widen a).toInt + (widen b).toInt + k.toNat) % 256 := by
    simp only [toInt_widen, UInt8.toNat_add]
    omega
  rw [addOverflows_eq (by omega) hsum, toInt_widen, toInt_widen, signed_eq_bmod, signed_eq_bmod]

theorem subOverflows_widen (hk : k.toNat = 0 ∨ k.toNat = 1) :
    subOverflows (widen a) (widen b) (widen (a - b - k)) =
      outsideByte (signed a - signed b - k.toNat) := by
  have ha := a.toNat_lt
  have hb := b.toNat_lt
  have hdifference : (widen (a - b - k)).toInt % 256 =
      ((widen a).toInt - (widen b).toInt - k.toNat) % 256 := by
    simp only [toInt_widen, UInt8.toNat_sub]
    omega
  rw [subOverflows_eq (by omega) hdifference, toInt_widen, toInt_widen, signed_eq_bmod,
    signed_eq_bmod]

end Bytes

namespace State

variable (s : State) (v : UInt8)

theorem toNat_carryBit : s.carryBit.toNat = s.status.carry.toNat := by
  rw [carryBit]
  cases s.status.carry <;> rfl

theorem toNat_borrow : (1 - s.carryBit).toNat = 1 - s.status.carry.toNat := by
  rw [carryBit]
  cases s.status.carry <;> rfl

/-- ADC adds the numbers and the carry. -/
theorem adc_eq :
    s.adc v =
      let sum := s.a.toNat + v.toNat + s.status.carry.toNat
      { s with
        a := UInt8.ofNat sum
        status := { s.status.withResult (UInt8.ofNat sum) with
          carry := decide (255 < sum)
          overflow := outsideByte (signed s.a + signed v + s.status.carry.toNat) } } := by
  have hcarry := s.toNat_carryBit
  have hbit : s.status.carry.toNat ≤ 1 := Bool.toNat_le _
  have hsum : s.a + v + s.carryBit = UInt8.ofNat (s.a.toNat + v.toNat + s.status.carry.toNat) := by
    apply UInt8.toNat_inj.mp
    simp [UInt8.toNat_add, hcarry]
  simp only [adc, carryOut_widen_add, addOverflows_widen _ _ (k := s.carryBit) (by omega), hcarry]
  rw [hsum]
  rfl

/-- SBC subtracts the number and the borrow, which is the absence of a carry. -/
theorem sbc_eq :
    s.sbc v =
      let difference : Int := s.a.toNat - v.toNat - (1 - s.status.carry.toNat)
      { s with
        a := UInt8.ofInt difference
        status := { s.status.withResult (UInt8.ofInt difference) with
          carry := decide (0 ≤ difference)
          overflow := outsideByte (signed s.a - signed v - (1 - s.status.carry.toNat)) } } := by
  have hbit : s.status.carry.toNat ≤ 1 := Bool.toNat_le _
  have hborrow : ((1 - s.carryBit).toNat : Int) = 1 - s.status.carry.toNat := by
    rw [toNat_borrow]
    omega
  have hdifference : s.a - v - (1 - s.carryBit) =
      UInt8.ofInt (s.a.toNat - v.toNat - (1 - s.status.carry.toNat)) := by
    have ha := s.a.toNat_lt
    have hv := v.toNat_lt
    apply UInt8.toNat_inj.mp
    rw [toNat_ofInt, UInt8.toNat_sub, toNat_borrow, UInt8.toNat_sub]
    omega
  simp only [sbc, carryOut_widen_sub, subOverflows_widen _ _ (k := 1 - s.carryBit) (by omega),
    hborrow]
  rw [hdifference]
  rfl

/-- A comparison orders two bytes as numbers. -/
theorem compare_eq (r : UInt8) :
    s.compare r v =
      { s with status := { s.status with
          carry := decide (v.toNat ≤ r.toNat)
          zero := decide (r = v)
          negative := bit 7 (UInt8.ofInt (r.toNat - v.toNat)) } } := by
  simp only [compare, withResult, Status.withResult, ofInt_sub, sub_beq_zero]
  rfl

end State

end Mos6502
