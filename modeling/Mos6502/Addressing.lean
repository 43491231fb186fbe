import Mos6502.Machine

/-!
# Addressing modes

Where an instruction finds its operand. An address is resolved while the program counter is still at
the opcode; resolving reads memory and changes nothing. Only the three modes that add an index to a
16-bit base can cross a page.
-/

namespace Mos6502

inductive Mode where
  | implied
  | accumulator
  | immediate
  | zeroPage
  | zeroPageX
  | zeroPageY
  | relative
  | absolute
  | absoluteX
  | absoluteY
  | indirect
  | indexedIndirect
  | indirectIndexed
  deriving DecidableEq, Repr

/-- The number of bytes between the opcode and the next instruction. -/
def Mode.operandLength : Mode → Nat
  | implied | accumulator => 0
  | absolute | absoluteX | absoluteY | indirect => 2
  | immediate | zeroPage | zeroPageX | zeroPageY | relative | indexedIndirect
  | indirectIndexed => 1

/-- An effective address, and whether adding the index carried it to another page. -/
structure Resolved where
  address : UInt16
  crossed : Bool
  deriving DecidableEq, Repr

namespace Resolved

/-- An address that no index was added to. -/
def fixed (address : UInt16) : Resolved := ⟨address, false⟩

def indexed (base : UInt16) (index : UInt8) : Resolved :=
  let address := base + index.toUInt16
  ⟨address, pagesDiffer base address⟩

end Resolved

namespace Machine

/-- The byte after the opcode. -/
def operandByte (m : Machine) : UInt8 := m.memory.get (m.state.pc + 1)

/-- The word after the opcode. -/
def operandWord (m : Machine) : UInt16 := m.memory.readWord (m.state.pc + 1)

/-- The word that a pointer in page zero holds; both its bytes lie in page zero. -/
def pointer (m : Machine) (p : UInt8) : UInt16 := m.memory.readWordInPage p.toUInt16

/-- The effective address, with the program counter at the opcode. Modes without one give 0. -/
def resolve (m : Machine) : Mode → Resolved
  | .implied | .accumulator => .fixed 0
  | .immediate => .fixed (m.state.pc + 1)
  | .zeroPage => .fixed m.operandByte.toUInt16
  | .zeroPageX => .fixed (m.operandByte + m.state.x).toUInt16
  | .zeroPageY => .fixed (m.operandByte + m.state.y).toUInt16
  | .relative => .fixed (m.state.pc + 2 + displacement m.operandByte)
  | .absolute => .fixed m.operandWord
  | .absoluteX => .indexed m.operandWord m.state.x
  | .absoluteY => .indexed m.operandWord m.state.y
  | .indirect => .fixed (m.memory.readWordInPage m.operandWord)
  | .indexedIndirect => .fixed (m.pointer (m.operandByte + m.state.x))
  | .indirectIndexed => .indexed (m.pointer m.operandByte) m.state.y

end Machine

end Mos6502
