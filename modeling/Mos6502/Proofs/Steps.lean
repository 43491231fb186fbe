import Mos6502.Proofs.Cost

/-!
# Sequences of lenient steps

`Cpu.steps n` is `n` calls of `Cpu.step` as one outcome. A sequence splits at either end, never
touches the halted mark and takes at most eight cycles a step.
-/

namespace Mos6502

namespace Cpu

/-- `n` steps: the sum of their cycles, the processor after them, and their reports in order. -/
def steps : Nat → Cpu → Outcome Nat
  | 0, c => ⟨0, c, []⟩
  | n + 1, c =>
    let o := c.step
    let rest := steps n o.cpu
    ⟨o.value + rest.value, rest.cpu, o.events ++ rest.events⟩

/-- The processor after `n` steps. -/
def after (c : Cpu) (n : Nat) : Cpu := (steps n c).cpu

@[simp] theorem steps_zero (c : Cpu) : steps 0 c = ⟨0, c, []⟩ := rfl

@[simp] theorem after_zero (c : Cpu) : c.after 0 = c := rfl

@[simp] theorem steps_cpu (n : Nat) (c : Cpu) : (steps n c).cpu = c.after n := rfl

theorem steps_succ (n : Nat) (c : Cpu) :
    steps (n + 1) c =
      ⟨c.step.value + (steps n c.step.cpu).value, c.step.cpu.after n,
        c.step.events ++ (steps n c.step.cpu).events⟩ := rfl

/-- The first step split off. -/
theorem after_succ (c : Cpu) (n : Nat) : c.after (n + 1) = c.step.cpu.after n := rfl

/-- The last step split off. -/
theorem after_succ_last (c : Cpu) (n : Nat) : c.after (n + 1) = (c.after n).step.cpu := by
  induction n generalizing c with
  | zero => rfl
  | succ n ih => rw [after_succ, ih, after_succ]

/-- What one step makes of the machine. -/
theorem machine_step (c : Cpu) : c.step.cpu.machine = c.machine.step := rfl

theorem machine_after_succ (c : Cpu) (n : Nat) :
    (c.after (n + 1)).machine = (c.after n).machine.step := by
  rw [after_succ_last, machine_step]

theorem halted_step (c : Cpu) : c.step.cpu.state.halted = c.state.halted :=
  c.machine.halted_perform _

theorem steps_value_le (n : Nat) (c : Cpu) : (steps n c).value ≤ Machine.cyclesBound * n := by
  induction n generalizing c with
  | zero => exact Nat.le_refl _
  | succ n ih =>
    have hfirst := c.step_value_le
    have hrest := ih c.step.cpu
    simp only [steps_succ, Machine.cyclesBound] at *
    omega

/-- Steps that take the same cycles one by one take the same in all. -/
theorem steps_value_congr {s t : Cpu} {n : Nat}
    (h : ∀ k < n, (t.after k).step.value = (s.after k).step.value) :
    (steps n t).value = (steps n s).value := by
  induction n generalizing s t with
  | zero => rfl
  | succ n ih =>
    have hfirst : t.step.value = s.step.value := h 0 (Nat.zero_lt_succ n)
    have hrest := ih (s := s.step.cpu) (t := t.step.cpu)
      fun k hk => h (k + 1) (Nat.succ_lt_succ hk)
    simp only [steps_succ, hfirst, hrest]

end Cpu

end Mos6502
