import Mos6502.Text.Digits

/-!
# Faults

The two reasons for which strict execution stops, and the text of each.
-/

namespace Mos6502

open Text

inductive Fault where
  /-- The opcode at `pc` has no meaning. Nothing of it was executed. -/
  | unassignedOpcode (opcode : UInt8) (pc : UInt16)
  /-- An earlier strict step met an unassigned opcode and no reset followed. -/
  | halted (pc : UInt16)
  deriving DecidableEq, Repr

def Fault.message : Fault → String
  | unassignedOpcode opcode pc => "Unassigned opcode 0x" ++ hex2 opcode ++ " at 0x" ++ hex4 pc
  | halted pc => "CPU halted at 0x" ++ hex4 pc

end Mos6502
