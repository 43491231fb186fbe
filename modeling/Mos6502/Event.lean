import Mos6502.Execution
import Mos6502.Text.Digits

/-!
# Events

What the processor reports while it works. An event is a value that keeps what was seen; its level
and its line of text are read off it.
-/

namespace Mos6502

open Text

inductive Level where
  | warn | debug | trace
  deriving DecidableEq, Repr

def Level.name : Level → String
  | warn => "WARN"
  | debug => "DEBUG"
  | trace => "TRACE"

inductive Event where
  /-- A reset, which set the program counter to `pc`. -/
  | reset (pc : UInt16)
  /-- An interrupt was entered at `source` and execution goes on at `target`. -/
  | entry (vector source target : UInt16)
  /-- An instruction is about to execute on the registers `s`, `cycles` after power-up. -/
  | instruction (s : State) (opcode : UInt8) (cycles : UInt64)
  /-- A stub was passed over. -/
  | stub (pc : UInt16) (opcode : UInt8)
  /-- An unassigned opcode was passed over. -/
  | skipped (pc : UInt16) (opcode : UInt8)
  /-- An unassigned opcode was refused. -/
  | refused (pc : UInt16) (opcode : UInt8)
  deriving DecidableEq, Repr

namespace Event

def level : Event → Level
  | reset _ | entry _ _ _ | stub _ _ => .debug
  | instruction _ _ _ => .trace
  | skipped _ _ | refused _ _ => .warn

/-- The registers in columns; a mnemonic has three letters and its column is four wide. -/
def registers (s : State) (opcode : UInt8) (cycles : UInt64) : String :=
  hex4 s.pc ++ "  " ++ hex2 opcode ++ " " ++ (Opcode.decode opcode).mnemonic ++ "  A:" ++
    hex2 s.a ++ " X:" ++ hex2 s.x ++ " Y:" ++ hex2 s.y ++ " P:" ++ hex2 s.status.toByte ++
    " SP:" ++ hex2 s.sp ++ " CYC:" ++ cycles.toNat.repr

def text : Event → String
  | reset pc => "reset: PC=0x" ++ hex4 pc
  | entry vector source target =>
    "interrupt entry via 0x" ++ hex4 vector ++ ": return PC 0x" ++ hex4 source ++ " -> 0x" ++
      hex4 target
  | instruction s opcode cycles => registers s opcode cycles
  | stub pc opcode =>
    "0x" ++ hex4 pc ++ ": " ++ (Opcode.decode opcode).mnemonic ++ " (0x" ++ hex2 opcode ++
      ") executed as no-op"
  | skipped pc opcode =>
    "0x" ++ hex4 pc ++ ": unassigned opcode 0x" ++ hex2 opcode ++ " (" ++
      (Opcode.decode opcode).mnemonic ++ ") skipped"
  | refused pc opcode =>
    "0x" ++ hex4 pc ++ ": unassigned opcode 0x" ++ hex2 opcode ++ ", halting"

/-- The level and the text, as a log shows them. -/
def line (e : Event) : String := e.level.name ++ " " ++ e.text

end Event

end Mos6502
