import Mathlib.Algebra.Group.Nat.Defs
import Mos6502.Proofs.Resolution
import Mos6502.Proofs.Steps

/-!
# Opcodes without effect

A stub or an unassigned opcode is passed over: the program goes on behind its operand, the step is
published, charged and counted, and nothing else is different. Every other step leaves the count of
such opcodes alone.
-/

namespace Mos6502

namespace Opcode

/-- The rows without effect are those of the undocumented instructions that are skipped. -/
theorem unimplemented_iff {o : Opcode} :
    o.unimplemented = true ↔ o.kind = .stub ∨ o.kind = .unassigned := by
  simp [unimplemented]

theorem exists_skip_of_unimplemented {o : Opcode} (h : o.unimplemented = true) :
    ∃ u, o.operation = .skip u := by
  cases hop : o.operation with
  | skip u => exact ⟨u, rfl⟩
  | _ => cases hu : o.undocumented <;> simp [unimplemented, kind, hop, hu] at h

end Opcode

namespace Machine

/-- The next step passes over an opcode without effect. -/
def Skips (m : Machine) : Prop :=
  m.state.serviceable = none ∧ (m.row.kind = .stub ∨ m.row.kind = .unassigned)

instance (m : Machine) : Decidable m.Skips := inferInstanceAs (Decidable (_ ∧ _))

/-- A skip is a jump behind the operand. -/
theorem step_of_skips {m : Machine} (h : m.Skips) :
    m.step = m.jump (m.state.pc + 1 + UInt16.ofNat m.row.mode.operandLength) := by
  obtain ⟨u, hop⟩ := Opcode.exists_skip_of_unimplemented (Opcode.unimplemented_iff.mpr h.2)
  have hbrk : m.row.operation ≠ .brk := by simp [hop]
  have hlength : m.row.length = 1 + m.row.mode.operandLength := Opcode.length_of_ne_brk hbrk
  rw [step_of_upcoming (upcoming_eq_some_iff.mpr ⟨h.1, hop⟩), hlength, UInt16.ofNat_add,
    UInt16.add_assoc]
  rfl

/-- The steps that count as unimplemented are those that skip. -/
theorem unimplemented_next_iff {m : Machine} : m.next.unimplemented = true ↔ m.Skips := by
  cases hs : m.state.serviceable with
  | some i => simp [next_of_serviceable hs, Activity.unimplemented, Skips, hs]
  | none =>
    rw [next_of_not_serviceable hs, Skips, hs, ← Opcode.unimplemented_iff, eq_self, true_and]
    rfl

end Machine

namespace Cpu

theorem unimplemented_step (c : Cpu) :
    c.step.cpu.unimplemented = c.unimplemented + if c.machine.Skips then 1 else 0 := by
  change c.unimplemented + c.machine.next.unimplemented.toUInt64 = _
  by_cases h : c.machine.Skips
  · rw [if_pos h, Machine.unimplemented_next_iff.mpr h]
    rfl
  · rw [if_neg h, Bool.eq_false_iff.mpr (mt Machine.unimplemented_next_iff.mp h)]
    rfl

/-- A sequence of skips is one jump, and each of them counts. -/
theorem after_of_skips {c : Cpu} {n : Nat} (h : ∀ k < n, (c.after k).machine.Skips) :
    (c.after n).machine = c.machine.jump (c.after n).state.pc ∧
      (c.after n).unimplemented = c.unimplemented + UInt64.ofNat n := by
  induction n with
  | zero => exact ⟨rfl, (UInt64.add_zero _).symm⟩
  | succ n ih =>
    obtain ⟨hmachine, hcount⟩ := ih fun k hk => h k (Nat.lt_succ_of_lt hk)
    have hskip := h n (Nat.lt_succ_self n)
    constructor
    · rw [state, machine_after_succ, Machine.step_of_skips hskip, hmachine]
      rfl
    · rw [after_succ_last, unimplemented_step, if_pos hskip, hcount, UInt64.add_assoc,
        UInt64.ofNat_add]
      rfl

/-- Opcodes without effect are passed over. The step goes on behind the operand, publishes where it
was and what it would have used, and counts; registers, flags, latch, halted mark and memory stay as
they are. So over any number of such steps only the program counter moves, and each of them counts,
while a step that executes anything else or enters an interrupt does not. -/
theorem skips_change_nothing (c : Cpu) :
    (c.machine.Skips →
      let mode := c.machine.row.mode
      c.step.cpu =
        { machine := c.machine.jump (c.state.pc + 1 + UInt16.ofNat mode.operandLength)
          context := ⟨c.state.pc, UInt16.ofNat (c.machine.operandAddress mode), mode⟩
          cycles := c.cycles + UInt64.ofNat c.step.value
          unimplemented := c.unimplemented + 1 }) ∧
    (∀ n, (∀ k < n, (c.after k).machine.Skips) →
      (c.after n).machine = c.machine.jump (c.after n).state.pc ∧
      (c.after n).unimplemented = c.unimplemented + UInt64.ofNat n ∧
      (c.unimplemented.toNat + n < 2 ^ 64 →
        (c.after n).unimplemented.toNat = c.unimplemented.toNat + n)) ∧
    (c.state.serviceable.isSome ∨ c.machine.row.kind = .official ∨
        c.machine.row.kind = .unofficial →
      c.step.cpu.unimplemented = c.unimplemented) := by
  refine ⟨?_, ?_, ?_⟩
  · intro h mode
    have hmachine : c.step.cpu.machine = _ := (machine_step c).trans (Machine.step_of_skips h)
    have hcontext := context_step_of_not_serviceable h.1
    have hcount := c.unimplemented_step
    rw [if_pos h] at hcount
    rw [← hmachine, ← hcontext, ← hcount]
    rfl
  · intro n h
    obtain ⟨hmachine, hcount⟩ := after_of_skips h
    refine ⟨hmachine, hcount, fun hfit => ?_⟩
    rw [hcount, UInt64.toNat_add, UInt64.toNat_ofNat']
    omega
  · intro h
    have hno : ¬ c.machine.Skips := by
      rintro ⟨hfree, hkind⟩
      rcases h with hsome | hofficial | hunofficial
      · simp [state, hfree] at hsome
      · simp [hofficial] at hkind
      · simp [hunofficial] at hkind
    rw [unimplemented_step, if_neg hno]
    exact UInt64.add_zero _

/-- A stub whose operand names its own cell, KIL, and a stub that names a vector. -/
def passedOver : Cpu := zero.onMemory (·.load 0 [0x07, 0x00, 0x02, 0xEF, 0xFC, 0xFF, 0xEA])

theorem skips_change_nothing_passedOver :
    (∀ k < 3, (passedOver.after k).machine.Skips) ∧
      (passedOver.after 3).machine = passedOver.machine.jump 6 ∧
      (passedOver.after 3).unimplemented.toNat = 3 ∧
      passedOver.step.cpu.context = ⟨0, 0, .zeroPage⟩ ∧
      ((passedOver.after 3).machine.row.kind = .official ∧
        (passedOver.after 3).step.cpu.unimplemented = (passedOver.after 3).unimplemented) := by
  have hskips : ∀ k < 3, (passedOver.after k).machine.Skips := by decide +kernel
  have hpc : (passedOver.after 3).state.pc = 6 := by decide +kernel
  have hofficial : (passedOver.after 3).machine.row.kind = .official := by decide +kernel
  obtain ⟨hstep, hrun, -⟩ := skips_change_nothing passedOver
  obtain ⟨hmachine, -, hcount⟩ := hrun 3 hskips
  refine ⟨hskips, ?_, ?_, ?_, hofficial, ?_⟩
  · rw [hmachine, hpc]
  · exact hcount (by decide)
  · rw [hstep (hskips 0 (by decide))]
    decide +kernel
  · exact (skips_change_nothing (passedOver.after 3)).2.2 (.inr (.inl hofficial))

end Cpu

end Mos6502
