import Mos6502.Opcode

/-!
# Execution

One step of the machine: it enters an interrupt that can be serviced, or else executes the
instruction at the program counter. `Machine.next` only looks, `Machine.perform` acts on what was
seen, and the cost and the published context are read off the machine before the step.
-/

namespace Mos6502

/-- An instruction as fetched, its operand located but nothing executed. -/
structure Fetched where
  pc : UInt16
  opcode : UInt8
  operand : Resolved
  deriving DecidableEq, Repr

/-- The table row of the opcode. -/
def Fetched.row (f : Fetched) : Opcode := .decode f.opcode

/-- What one step does. -/
inductive Activity where
  | entry (i : Interrupt)
  | instruction (f : Fetched)
  deriving DecidableEq, Repr

/-- The step executes an opcode without effect. -/
def Activity.unimplemented : Activity → Bool
  | entry _ => false
  | instruction f => f.row.unimplemented

/-- The address at which a step began, the effective address, and the mode that gave it; for an
interrupt entry the effective address is the vector. -/
structure Context where
  pc : UInt16
  address : UInt16
  mode : Mode
  deriving DecidableEq, Repr

def Context.zero : Context := ⟨0, 0, .implied⟩

namespace Machine

/-- Change the register file alone. -/
def onState (m : Machine) (f : State → State) : Machine := { m with state := f m.state }

def store (m : Machine) (a : UInt16) (v : UInt8) : Machine := { m with memory := m.memory.set a v }

/-- The effect of an operation, with the program counter already past the instruction. -/
def execute (m : Machine) (op : Operation) (mode : Mode) (address : UInt16) : Machine :=
  let v := m.memory.get address
  match op with
  | .load r => m.onState (·.load r v)
  | .store r => m.store address (m.state.get r)
  | .compare r => m.onState fun s => s.compare (s.get r) v
  | .transfer t => m.onState (·.transfer t)
  | .logic l => m.onState (·.logic l v)
  | .bit => m.onState (·.bitTest v)
  | .adc => m.onState (·.adc v)
  | .sbc => m.onState (·.sbc v)
  | .increment i => m.onState (·.increment i)
  | .decrement i => m.onState (·.decrement i)
  | .incrementMemory => m.incrementAt address
  | .decrementMemory => m.decrementAt address
  | .shift k => if mode = .accumulator then m.shiftA k else m.shiftAt k address
  | .pha => m.pha
  | .php => m.php
  | .pla => m.pla
  | .plp => m.plp
  | .jump => m.jump address
  | .call => m.call address
  | .ret => m.ret
  | .rti => m.rti
  | .brk => m.enter irqVector true
  | .branch b => if b.taken m.state.status then m.jump address else m
  | .flag c => m.onState (·.changeFlag c)
  | .nop => m
  | .skip _ => m

/-- Fetch the instruction at the program counter. -/
def fetch (m : Machine) : Fetched :=
  let opcode := m.memory.get m.state.pc
  ⟨m.state.pc, opcode, m.resolve (Opcode.decode opcode).mode⟩

/-- What the next step does. -/
def next (m : Machine) : Activity :=
  match m.state.serviceable with
  | some i => .entry i
  | none => .instruction m.fetch

/-- The opcode that strict execution refuses now, if there is one. -/
def refused (m : Machine) : Option UInt8 :=
  match m.next with
  | .entry _ => none
  | .instruction f => if f.row.kind = .unassigned then some f.opcode else none

/-- Act on what was seen. -/
def perform (m : Machine) : Activity → Machine
  | .entry i => m.enter i.vector false
  | .instruction f =>
    (m.onState (·.advance (UInt16.ofNat f.row.length))).execute f.row.operation f.row.mode
      f.operand.address

/-- The cycles that an interrupt entry takes. -/
def entryCycles : Nat := 7

/-- A branch taken costs one cycle, and one more if it leaves the page of the next instruction. -/
def branchCycles (m : Machine) (f : Fetched) : Nat :=
  match f.row.operation with
  | .branch b =>
    if b.taken m.state.status then
      if pagesDiffer (f.pc + UInt16.ofNat f.row.length) f.operand.address then 2 else 1
    else 0
  | _ => 0

/-- The cost of what the next step does. -/
def cycles (m : Machine) : Activity → Nat
  | .entry _ => entryCycles
  | .instruction f =>
    f.row.cycles + (if f.operand.crossed && f.row.pageBonus then 1 else 0) + m.branchCycles f

def context (m : Machine) : Activity → Context
  | .entry i => ⟨m.state.pc, i.vector, .implied⟩
  | .instruction f => ⟨f.pc, f.operand.address, f.row.mode⟩

def step (m : Machine) : Machine := m.perform m.next

end Machine

end Mos6502
