/-!
# Carry and overflow

The two predicates of binary byte arithmetic, on 32-bit intermediates. Only the low byte of an
operand counts, so a negative or unmasked intermediate answers as its low byte does.
-/

namespace Mos6502

/-- The low byte of an intermediate, as a number from 0 to 255. -/
def masked (n : Int32) : Int32 := n &&& 0xFF

/-- The carry out of `a + b + carry`, or the absence of a borrow from `a - b - carry`. -/
def carryOut (a b carry : Int32) (addition : Bool) : Bool :=
  if addition then masked a + masked b + masked carry > 0xFF
  else masked a - masked b - masked carry ≥ 0

/-- The operands have one sign and the sum has the other. -/
def addOverflows (a b sum : Int32) : Bool := (a ^^^ b) &&& 0x80 == 0 && (a ^^^ sum) &&& 0x80 != 0

/-- The operands differ in sign and the difference does not have the sign of the minuend. -/
def subOverflows (a b difference : Int32) : Bool :=
  (a ^^^ b) &&& 0x80 != 0 && (a ^^^ difference) &&& 0x80 != 0

/-- A byte as an intermediate. -/
def widen (v : UInt8) : Int32 := v.toUInt32.toInt32

end Mos6502
