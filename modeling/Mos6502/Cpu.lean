import Mos6502.Event
import Mos6502.Fault

/-!
# The processor

A machine with the context of its last step and two running totals. `Cpu.step` always executes
something. `Cpu.tryStep` and `Cpu.run` are strict: they refuse an unassigned opcode before any of it
takes effect, and from then on everything until the next reset.
-/

namespace Mos6502

structure Cpu where
  machine : Machine
  context : Context
  /-- The cycles of all steps since power-up. -/
  cycles : UInt64
  /-- The steps since power-up that executed a stub or an unassigned opcode. -/
  unimplemented : UInt64
  deriving DecidableEq

/-- What an operation returned, the processor after it, and what it reported, in order. -/
structure Outcome (α : Type) where
  value : α
  cpu : Cpu
  events : List Event

namespace Cpu

/-- The processor at power-up: everything is 0. -/
def zero : Cpu := ⟨.zero, .zero, 0, 0⟩

abbrev state (c : Cpu) : State := c.machine.state

abbrev memory (c : Cpu) : Memory := c.machine.memory

def onState (c : Cpu) (f : State → State) : Cpu := { c with machine := c.machine.onState f }

def onMemory (c : Cpu) (f : Memory → Memory) : Cpu :=
  { c with machine := { c.machine with memory := f c.machine.memory } }

@[simp] theorem onMemory_state (c : Cpu) (f : Memory → Memory) :
    (c.onMemory f).state = c.state := rfl

theorem onMemory_memory (c : Cpu) (f : Memory → Memory) : (c.onMemory f).memory = f c.memory := rfl

def request (c : Cpu) (i : Interrupt) : Cpu := c.onState (·.request i)

/-- Reset the registers and load the program counter from its vector. Memory and totals stay. -/
def reset (c : Cpu) : Outcome Unit :=
  let machine := c.machine.reset
  ⟨(), { c with machine }, [.reset machine.state.pc]⟩

/-- What a step that does `act` reports, given the machine after it. -/
def report (c : Cpu) (act : Activity) (after : Machine) : List Event :=
  match act with
  | .entry i => [.entry i.vector c.state.pc after.state.pc]
  | .instruction f =>
    let traced := Event.instruction c.state f.opcode c.cycles
    match f.row.kind with
    | .official | .unofficial => [traced]
    | .stub => [traced, .stub f.pc f.opcode]
    | .unassigned => [traced, .skipped f.pc f.opcode]

/-- Execute one step and return its cycles. -/
def step (c : Cpu) : Outcome Nat :=
  let act := c.machine.next
  let n := c.machine.cycles act
  let after := c.machine.perform act
  { value := n
    cpu :=
      { machine := after
        context := c.machine.context act
        cycles := c.cycles + UInt64.ofNat n
        unimplemented := c.unimplemented + act.unimplemented.toUInt64 }
    events := c.report act after }

/-- Execute one step unless the processor is halted or the opcode is refused. -/
def tryStep (c : Cpu) : Outcome (Except Fault Nat) :=
  if c.state.halted then ⟨.error (.halted c.state.pc), c, []⟩
  else
    match c.machine.refused with
    | some opcode =>
      { value := .error (.unassignedOpcode opcode c.state.pc)
        cpu := c.onState ({ · with halted := true })
        events := [.refused c.state.pc opcode] }
    | none =>
      let o := c.step
      ⟨.ok o.value, o.cpu, o.events⟩

/-- `run` after steps that took `total` cycles and reported `log`, newest first. -/
def runFrom (total : UInt64) (log : List Event) : Nat → Cpu → Outcome (Except Fault UInt64)
  | 0, c => ⟨.ok total, c, log.reverse⟩
  | n + 1, c =>
    let o := c.tryStep
    let log := o.events.reverse ++ log
    match o.value with
    | .error f => ⟨.error f, o.cpu, log.reverse⟩
    | .ok k => runFrom (total + UInt64.ofNat k) log n o.cpu

/-- Execute up to `n` strict steps and return their cycles; the first fault ends the run. -/
def run (n : Nat) (c : Cpu) : Outcome (Except Fault UInt64) := runFrom 0 [] n c

@[simp] theorem run_zero (c : Cpu) : c.run 0 = ⟨.ok 0, c, []⟩ := rfl

theorem runFrom_eq (total : UInt64) (log : List Event) (n : Nat) (c : Cpu) :
    runFrom total log n c =
      ⟨(c.run n).value.map (total + ·), (c.run n).cpu, log.reverse ++ (c.run n).events⟩ := by
  induction n generalizing total log c with
  | zero => simp [run, runFrom, Except.map]
  | succ n ih =>
    rw [run, runFrom, runFrom]
    cases h : c.tryStep.value with
    | error f => simp [Except.map]
    | ok k =>
      simp only
      rw [ih, ih (0 + UInt64.ofNat k)]
      cases (c.tryStep.cpu.run n).value <;> simp [Except.map, UInt64.add_assoc]

/-- A run is a strict step and then, unless that step is at fault, the rest of the run. -/
theorem run_succ (n : Nat) (c : Cpu) :
    c.run (n + 1) =
      match c.tryStep.value with
      | .error f => ⟨.error f, c.tryStep.cpu, c.tryStep.events⟩
      | .ok k =>
        let o := c.tryStep.cpu.run n
        ⟨o.value.map (UInt64.ofNat k + ·), o.cpu, c.tryStep.events ++ o.events⟩ := by
  rw [run, runFrom]
  cases c.tryStep.value with
  | error f => simp
  | ok k => simp [runFrom_eq]

end Cpu

end Mos6502
