/-!
# Bytes and words

A byte is eight bits and a word sixteen; a page is the set of addresses that share a high byte.
Splitting a word into its bytes and joining two bytes are inverse.
-/

namespace Mos6502

/-- The word with the given high and low bytes. -/
def word (high low : UInt8) : UInt16 := high.toUInt16 * 256 + low.toUInt16

def highByte (w : UInt16) : UInt8 := (w / 256).toUInt8

def lowByte (w : UInt16) : UInt8 := w.toUInt8

/-- Bit `i` of a byte, counted from the low end. -/
def bit (i : Nat) (v : UInt8) : Bool := v.toNat.testBit i

/-- The word that a byte names when it is read as a signed displacement. -/
def displacement (v : UInt8) : UInt16 := v.toInt8.toInt16.toUInt16

/-- Two addresses lie on different pages when their high bytes differ. -/
def pagesDiffer (a b : UInt16) : Bool := highByte a != highByte b

/-- A check of all 256 numbers is a check of all bytes. -/
theorem forall_byte {P : UInt8 → Prop} (h : ∀ n : Fin 256, P (UInt8.ofNat n)) (v : UInt8) :
    P v := by
  simpa using h ⟨v.toNat, v.toNat_lt⟩

@[simp] theorem toNat_word (h l : UInt8) : (word h l).toNat = h.toNat * 256 + l.toNat := by
  have := h.toNat_lt
  have := l.toNat_lt
  simp only [word, UInt16.toNat_add, UInt16.toNat_mul, UInt8.toNat_toUInt16, UInt16.reduceToNat]
  omega

@[simp] theorem toNat_highByte (w : UInt16) : (highByte w).toNat = w.toNat / 256 := by
  have := w.toNat_lt
  simp only [highByte, UInt16.toNat_toUInt8, UInt16.toNat_div, UInt16.reduceToNat]
  omega

@[simp] theorem toNat_lowByte (w : UInt16) : (lowByte w).toNat = w.toNat % 256 := by
  simp [lowByte]

@[simp] theorem highByte_word (h l : UInt8) : highByte (word h l) = h := by
  apply UInt8.toNat_inj.mp
  have := l.toNat_lt
  simp only [toNat_highByte, toNat_word]
  omega

@[simp] theorem lowByte_word (h l : UInt8) : lowByte (word h l) = l := by
  apply UInt8.toNat_inj.mp
  have := l.toNat_lt
  simp only [toNat_lowByte, toNat_word]
  omega

@[simp] theorem word_highByte_lowByte (w : UInt16) : word (highByte w) (lowByte w) = w := by
  apply UInt16.toNat_inj.mp
  simp only [toNat_word, toNat_highByte, toNat_lowByte]
  omega

/-- The words after `w`, counted from the next one and from `w` itself. -/
theorem add_one_add_ofNat (w : UInt16) (i : Nat) :
    w + 1 + UInt16.ofNat i = w + UInt16.ofNat (i + 1) := by
  rw [Nat.add_comm i 1, UInt16.ofNat_add, ← UInt16.add_assoc]
  rfl

end Mos6502
