import Mos6502.Action

/-!
# A demonstration

A program that adds, stores and counts X up to its wrap, run under the strict rules until it meets
an unassigned opcode, and the report of where it stopped.
-/

namespace Mos6502.Demo

open Text

/-- Where the program is loaded; all three vectors point here. -/
def start : UInt16 := 0x8000

def program : List UInt8 :=
  [0xA9, 0x10,        -- LDA #$10
   0x69, 0x05,        -- ADC #$05
   0x8D, 0x00, 0x02,  -- STA $0200
   0xE8,              -- INX
   0xD0, 0xFD,        -- BNE to the INX
   0x02]              -- KIL

/-- The processor with the program and its vectors loaded, after a reset. -/
def ready : Cpu :=
  let vector := [lowByte start, highByte start]
  let loaded := Cpu.zero.onMemory fun m =>
    (((m.load start program).load nmiVector vector).load resetVector vector).load irqVector vector
  loaded.reset.cpu

/-- The steps after which the run gives up. -/
def stepLimit : Nat := 1000000

def finish : Outcome (Except Fault UInt64) := ready.run stepLimit

/-- The reason for which a run ended. -/
def ending : Except Fault UInt64 → String
  | .ok n => "Stopped after step cap (" ++ n.toNat.repr ++ " cycles)"
  | .error f => "Stopped: " ++ f.message

def report (o : Outcome (Except Fault UInt64)) : List String :=
  let s := o.cpu.state
  [ending o.value,
   "A: 0x" ++ hex2 s.a,
   "X: 0x" ++ hex2 s.x,
   "Y: 0x" ++ hex2 s.y,
   "SP: 0x" ++ hex2 s.sp,
   "PC: 0x" ++ hex4 s.pc,
   "P (flags): 0b" ++ binary8 s.status.toByte,
   "cycles: " ++ o.cpu.cycles.toNat.repr,
   "mem[0x0200]: 0x" ++ hex2 (o.cpu.memory.get 0x0200)]

/-- The report of the demonstration, each line with its line end. -/
def output : String := String.join ((report finish).map (· ++ "\n"))

end Mos6502.Demo
