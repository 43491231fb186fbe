/-!
# Digits of a fixed width

Numbers written with a given count of digits in a base up to sixteen, leading zeros kept.
-/

namespace Mos6502.Text

/-- The digit of value `n` below sixteen, in upper case. -/
def digit (n : Nat) : Char :=
  if n < 10 then Char.ofNat (48 + n) else Char.ofNat (55 + n)

/-- The last `width` digits of `n`, highest first. -/
def digits (base : Nat) : Nat → Nat → List Char
  | 0, _ => []
  | width + 1, n => digits base width (n / base) ++ [digit (n % base)]

@[simp] theorem length_digits (base width n : Nat) : (digits base width n).length = width := by
  induction width generalizing n with
  | zero => rfl
  | succ w ih => simp [digits, ih]

/-- Two hexadecimal digits. -/
def hex2 (v : UInt8) : String := String.ofList (digits 16 2 v.toNat)

/-- Four hexadecimal digits. -/
def hex4 (w : UInt16) : String := String.ofList (digits 16 4 w.toNat)

/-- Eight binary digits. -/
def binary8 (v : UInt8) : String := String.ofList (digits 2 8 v.toNat)

end Mos6502.Text
