import Mos6502.Carry
import Mos6502.Interrupt
import Mos6502.Memory
import Mos6502.Operation

/-!
# The register file

The registers, the one-place latch for interrupt requests and the mark of a halted processor, with
the operations that touch nothing else. Arithmetic is binary whatever the decimal flag.
-/

namespace Mos6502

structure State where
  a : UInt8
  x : UInt8
  y : UInt8
  sp : UInt8
  pc : UInt16
  status : Status
  /-- The latched request. -/
  pending : Option Interrupt
  /-- Strict execution met an unassigned opcode. -/
  halted : Bool
  deriving DecidableEq, Repr

namespace State

def zero : State := ⟨0, 0, 0, 0, 0, .clear, none, false⟩

/-- The stack pointer after a reset. -/
def resetSp : UInt8 := 0xFD

/-- The register file after a reset with `m` attached. -/
def reset (m : Memory) : State :=
  { zero with
    sp := resetSp
    pc := m.readWord resetVector
    status := { Status.clear with irqDisable := true, unused := true } }

def advance (s : State) (n : UInt16) : State := { s with pc := s.pc + n }

def get (s : State) : Register → UInt8
  | .a => s.a
  | .x => s.x
  | .y => s.y

def index (s : State) : Index → UInt8
  | .x => s.x
  | .y => s.y

/-- Zero and negative as the result `v` leaves them. -/
def withResult (s : State) (v : UInt8) : State := { s with status := s.status.withResult v }

/-- Put `v` into a register and let it decide zero and negative. -/
def load (s : State) (r : Register) (v : UInt8) : State :=
  match r with
  | .a => { s with a := v }.withResult v
  | .x => { s with x := v }.withResult v
  | .y => { s with y := v }.withResult v

/-- Only a transfer to the stack pointer leaves the flags alone. -/
def transfer (s : State) : Transfer → State
  | .tax => s.load .x s.a
  | .tay => s.load .y s.a
  | .txa => s.load .a s.x
  | .tya => s.load .a s.y
  | .tsx => s.load .x s.sp
  | .txs => { s with sp := s.x }

def increment (s : State) : Index → State
  | .x => s.load .x (s.x + 1)
  | .y => s.load .y (s.y + 1)

def decrement (s : State) : Index → State
  | .x => s.load .x (s.x - 1)
  | .y => s.load .y (s.y - 1)

def logic (s : State) (l : Logic) (v : UInt8) : State :=
  match l with
  | .and => s.load .a (s.a &&& v)
  | .ora => s.load .a (s.a ||| v)
  | .eor => s.load .a (s.a ^^^ v)

/-- Zero from the common bits of A and `v`; negative and overflow are bits 7 and 6 of `v`. -/
def bitTest (s : State) (v : UInt8) : State :=
  { s with status := { s.status with
      zero := s.a &&& v == 0
      negative := bit 7 v
      overflow := bit 6 v } }

/-- The carry flag as a number. -/
def carryBit (s : State) : UInt8 := s.status.carry.toUInt8

/-- A becomes `A + v + C`. -/
def adc (s : State) (v : UInt8) : State :=
  let sum := s.a + v + s.carryBit
  { s with status := { s.status with
      carry := carryOut (widen s.a) (widen v) (widen s.carryBit) true
      overflow := addOverflows (widen s.a) (widen v) (widen sum) } }.load .a sum

/-- A becomes `A - v - (1 - C)`; the carry that comes out is the absence of a borrow. -/
def sbc (s : State) (v : UInt8) : State :=
  let borrow := 1 - s.carryBit
  let difference := s.a - v - borrow
  { s with status := { s.status with
      carry := carryOut (widen s.a) (widen v) (widen borrow) false
      overflow := subOverflows (widen s.a) (widen v) (widen difference) } }.load .a difference

/-- Carry when `r` is at least `v`; zero and negative from the difference. -/
def compare (s : State) (r v : UInt8) : State :=
  { s with status := { s.status with carry := v ≤ r } }.withResult (r - v)

/-- The flags as a shift of `v` leaves them; the byte itself is `Shift.result`. -/
def shifted (s : State) (k : Shift) (v : UInt8) : State :=
  { s with status := { s.status with carry := k.out v } }.withResult (k.result s.status.carry v)

def changeFlag (s : State) (c : FlagChange) : State :=
  { s with status := s.status.set c.flag c.value }

/-- Latch a request. An NMI always latches; an IRQ only while interrupts are enabled and no NMI
waits. -/
def request (s : State) : Interrupt → State
  | .nmi => { s with pending := some .nmi }
  | .irq =>
    if s.status.irqDisable || s.pending == some .nmi then s
    else { s with pending := some .irq }

/-- The request that the next step answers; a latched IRQ waits while interrupts are disabled. -/
def serviceable (s : State) : Option Interrupt :=
  match s.pending with
  | some .nmi => some .nmi
  | some .irq => if s.status.irqDisable then none else some .irq
  | none => none

end State

end Mos6502
