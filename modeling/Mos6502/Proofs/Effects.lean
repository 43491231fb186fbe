import Mos6502.Cpu

/-!
# What a step does and leaves alone

A step enters an interrupt or executes the instruction under the program counter; `Machine.upcoming`
is the operation of that instruction. No operation touches the mark of a halted processor and only
BRK touches the latch, so both parts of `State.control` survive almost every step.
-/

namespace Mos6502

open Machine

/-- The part of the register file that serves no computation. -/
def State.control (s : State) : Option Interrupt × Bool := (s.pending, s.halted)

/-- Only a latched request is answered, and an IRQ only while interrupts are enabled. -/
theorem State.serviceable_eq_some_iff {s : State} {i : Interrupt} :
    s.serviceable = some i ↔ s.pending = some i ∧ (i = .irq → s.status.irqDisable = false) := by
  cases i <;> rcases hp : s.pending with _ | _ | _ <;> simp [serviceable, hp]

/-- A request touches the latch alone. -/
theorem State.request_eq (s : State) (i : Interrupt) :
    s.request i = { s with pending := (s.request i).pending } := by
  cases i with
  | nmi => rfl
  | irq =>
    simp only [request]
    split <;> rfl

namespace Opcode

/-- Every row is as long as an opcode and the operand of its mode, but BRK has a padding byte. -/
theorem length_decode (v : UInt8) :
    (decode v).length =
      1 + (decode v).mode.operandLength + if (decode v).operation = .brk then 1 else 0 :=
  forall_decode
    (P := fun o => o.length = 1 + o.mode.operandLength + if o.operation = .brk then 1 else 0)
    (by decide +kernel) v

theorem length_of_ne_brk {v : UInt8} (h : (decode v).operation ≠ .brk) :
    (decode v).length = 1 + (decode v).mode.operandLength := by
  rw [length_decode, if_neg h, Nat.add_zero]

/-- Every branch has the same row. -/
theorem row_of_branch {v : UInt8} {b : Branch} (h : (decode v).operation = .branch b) :
    decode v = row (.branch b) .relative 2 2 := by
  refine forall_decode (P := fun o => o.operation = .branch b → o = row (.branch b) .relative 2 2)
    ?_ v h
  cases b <;> decide +kernel

/-- A branch is two bytes long and its operand is a displacement. -/
theorem shape_of_branch {v : UInt8} {b : Branch} (h : (decode v).operation = .branch b) :
    (decode v).mode = .relative ∧ (decode v).length = 2 := by
  rw [row_of_branch h]
  exact ⟨rfl, rfl⟩

end Opcode

namespace Machine

/-- The table row of the opcode under the program counter. -/
def row (m : Machine) : Opcode := .decode (m.memory.get m.state.pc)

/-- The operation that the next step executes, unless it enters an interrupt. -/
def upcoming (m : Machine) : Option Operation :=
  match m.next with
  | .entry _ => none
  | .instruction f => some f.row.operation

theorem next_of_serviceable {m : Machine} {i : Interrupt} (h : m.state.serviceable = some i) :
    m.next = .entry i := by
  simp only [next, h]

theorem next_of_not_serviceable {m : Machine} (h : m.state.serviceable = none) :
    m.next = .instruction m.fetch := by
  simp only [next, h]

theorem upcoming_eq_some_iff {m : Machine} {op : Operation} :
    m.upcoming = some op ↔ m.state.serviceable = none ∧ m.row.operation = op := by
  cases h : m.state.serviceable with
  | none => simp [upcoming, next_of_not_serviceable h, fetch, Fetched.row, row]
  | some i => simp [upcoming, next_of_serviceable h]

/-- Where no interrupt can be serviced, the opcode byte decides what comes. -/
theorem upcoming_of_opcode {m : Machine} {v : UInt8} (h : m.state.serviceable = none)
    (hv : m.memory.get m.state.pc = v) : m.upcoming = some (Opcode.decode v).operation :=
  upcoming_eq_some_iff.mpr ⟨h, by rw [row, hv]⟩

theorem step_of_serviceable {m : Machine} {i : Interrupt} (h : m.state.serviceable = some i) :
    m.step = m.enter i.vector false := by
  rw [step, next_of_serviceable h, perform]

/-- An instruction executes with the program counter already past it. -/
theorem step_of_upcoming {m : Machine} {op : Operation} (h : m.upcoming = some op) :
    m.step = (m.onState (·.advance (UInt16.ofNat m.row.length))).execute op m.row.mode
      (m.resolve m.row.mode).address := by
  obtain ⟨hs, hop⟩ := upcoming_eq_some_iff.mp h
  rw [step, next_of_not_serviceable hs, perform, ← hop]
  rfl

theorem row_of_branch {m : Machine} {b : Branch} (h : m.upcoming = some (.branch b)) :
    m.row = .row (.branch b) .relative 2 2 :=
  Opcode.row_of_branch (upcoming_eq_some_iff.mp h).2

/-- A branch goes to its target or to the instruction behind it. -/
theorem step_of_branch {m : Machine} {b : Branch} (h : m.upcoming = some (.branch b)) :
    m.step = m.jump (if b.taken m.state.status then
      m.state.pc + 2 + displacement m.operandByte else m.state.pc + 2) := by
  rw [step_of_upcoming h, row_of_branch h, apply_ite m.jump]
  rfl

/-- Only BRK touches the latch, and nothing touches the halted mark. -/
theorem control_execute (m : Machine) (op : Operation) (mode : Mode) (a : UInt16) :
    (m.execute op mode a).state.control =
      if op = .brk then (none, m.state.halted) else m.state.control := by
  cases op with
  | load r => cases r <;> rfl
  | transfer t => cases t <;> rfl
  | logic l => cases l <;> rfl
  | increment i => cases i <;> rfl
  | decrement i => cases i <;> rfl
  | shift k => rw [execute]; split <;> rfl
  | branch b => rw [execute]; split <;> rfl
  | _ => rfl

theorem halted_execute (m : Machine) (op : Operation) (mode : Mode) (a : UInt16) :
    (m.execute op mode a).state.halted = m.state.halted := by
  have h := congrArg Prod.snd (control_execute m op mode a)
  split at h <;> exact h

theorem pending_execute (m : Machine) (op : Operation) (mode : Mode) (a : UInt16) :
    (m.execute op mode a).state.pending = if op = .brk then none else m.state.pending := by
  have h := congrArg Prod.fst (control_execute m op mode a)
  split at h <;> simp_all [State.control]

/-- Neither an interrupt entry nor an instruction touches the halted mark. -/
theorem halted_perform (m : Machine) (act : Activity) :
    (m.perform act).state.halted = m.state.halted := by
  cases act with
  | entry i => rfl
  | instruction f => exact halted_execute _ _ _ _

end Machine

end Mos6502
