import Mathlib.Algebra.Group.Nat.Defs
import Mos6502.Action
import Mos6502.Proofs.Steps

/-!
# Strict execution

A strict run is the longest prefix of the lenient one that meets no unassigned opcode. As long as
no step is refused the two agree in result, processor and reports; at the first refused step the run
ends with the fault of that step and nothing but the halted mark changed. Runs therefore compose.
-/

namespace Mos6502

namespace Machine

/-- Strict execution refuses to go on: no interrupt comes first and the opcode is unassigned. -/
def Stuck (m : Machine) : Prop := m.state.serviceable = none ∧ m.row.kind = .unassigned

instance (m : Machine) : Decidable m.Stuck := inferInstanceAs (Decidable (_ ∧ _))

theorem refused_eq (m : Machine) :
    m.refused = if m.Stuck then some (m.memory.get m.state.pc) else none := by
  cases h : m.state.serviceable with
  | none =>
    simp only [refused, next_of_not_serviceable h, Stuck, h, true_and]
    rfl
  | some i => simp [refused, next_of_serviceable h, Stuck, h]

end Machine

namespace Cpu

/-- The fault of a refused step. -/
def refusal (c : Cpu) : Fault := .unassignedOpcode (c.memory.get c.state.pc) c.state.pc

/-- The processor with the halted mark set. -/
def halt (c : Cpu) : Cpu := c.onState ({ · with halted := true })

/-- The outcome of a refused step. -/
def refuse (c : Cpu) : Outcome (Except Fault Nat) :=
  ⟨.error c.refusal, c.halt, [.refused c.state.pc (c.memory.get c.state.pc)]⟩

theorem tryStep_of_halted {c : Cpu} (h : c.state.halted = true) :
    c.tryStep = ⟨.error (.halted c.state.pc), c, []⟩ := by
  rw [tryStep, if_pos h]

theorem tryStep_of_stuck {c : Cpu} (hc : c.state.halted = false) (h : c.machine.Stuck) :
    c.tryStep = c.refuse := by
  simp only [tryStep, hc, Bool.false_eq_true, ↓reduceIte, Machine.refused_eq, if_pos h]
  rfl

theorem tryStep_of_not_stuck {c : Cpu} (hc : c.state.halted = false) (h : ¬ c.machine.Stuck) :
    c.tryStep = c.step.map .ok := by
  simp only [tryStep, hc, Bool.false_eq_true, ↓reduceIte, Machine.refused_eq, if_neg h]
  rfl

/-- The cycles of a strict step are those of a lenient one. -/
theorem tryStep_value_le {c : Cpu} {k : Nat} (h : c.tryStep.value = .ok k) :
    k ≤ Machine.cyclesBound := by
  cases hc : c.state.halted with
  | true => simp [tryStep_of_halted hc] at h
  | false =>
    by_cases hs : c.machine.Stuck
    · simp [tryStep_of_stuck hc hs, refuse] at h
    · simp only [tryStep_of_not_stuck hc hs, Outcome.map, Except.ok.injEq] at h
      rw [← h]
      exact c.step_value_le

/-- The cycles and the events of a step before those of the run that follows it. -/
theorem run_succ_of_ok {c : Cpu} {k : Nat} (h : c.tryStep.value = .ok k) (n : Nat) :
    c.run (n + 1) =
      ⟨(c.tryStep.cpu.run n).value.map (UInt64.ofNat k + ·), (c.tryStep.cpu.run n).cpu,
        c.tryStep.events ++ (c.tryStep.cpu.run n).events⟩ := by
  rw [run_succ, h]

theorem run_succ_of_error {c : Cpu} {f : Fault} (h : c.tryStep.value = .error f) (n : Nat) :
    c.run (n + 1) = ⟨.error f, c.tryStep.cpu, c.tryStep.events⟩ := by
  rw [run_succ, h]

/-- A run that succeeds took a step that succeeded and a run that succeeded. -/
theorem exists_of_run_succ_ok {c : Cpu} {n : Nat} {a : UInt64}
    (h : (c.run (n + 1)).value = .ok a) :
    ∃ k b, c.tryStep.value = .ok k ∧ (c.tryStep.cpu.run n).value = .ok b ∧
      a = UInt64.ofNat k + b := by
  cases ht : c.tryStep.value with
  | error f => simp [run_succ_of_error ht] at h
  | ok k =>
    cases hr : (c.tryStep.cpu.run n).value with
    | error f => simp [run_succ_of_ok ht, hr, Except.map] at h
    | ok b => exact ⟨k, b, rfl, rfl, by simpa [run_succ_of_ok ht, hr, Except.map] using h.symm⟩

/-- While nothing is refused a run is the lenient sequence of the same length. -/
theorem run_of_not_stuck {c : Cpu} {n : Nat} (hc : c.state.halted = false)
    (h : ∀ i < n, ¬ (c.after i).machine.Stuck) :
    c.run n = (steps n c).map fun k => .ok (UInt64.ofNat k) := by
  induction n generalizing c with
  | zero => rfl
  | succ n ih =>
    have hfirst : c.tryStep = c.step.map .ok := tryStep_of_not_stuck hc (h 0 (by omega))
    have hrest := ih ((halted_step c).trans hc) (fun i hi => h (i + 1) (by omega))
    rw [run_succ, hfirst, steps_succ]
    simp only [Outcome.map, hrest, Except.map, UInt64.ofNat_add]
    rfl

/-- The first refused step ends the run. -/
theorem run_of_stuck {c : Cpu} {n k : Nat} (hc : c.state.halted = false) (hk : k < n)
    (h : ∀ i < k, ¬ (c.after i).machine.Stuck) (hs : (c.after k).machine.Stuck) :
    c.run n =
      ⟨.error (c.after k).refusal, (c.after k).halt,
        (steps k c).events ++ (c.after k).refuse.events⟩ := by
  induction k generalizing c n with
  | zero =>
    obtain ⟨n, rfl⟩ : ∃ l, n = l + 1 := ⟨n - 1, by omega⟩
    rw [run_succ, tryStep_of_stuck hc hs]
    rfl
  | succ k ih =>
    obtain ⟨n, rfl⟩ : ∃ l, n = l + 1 := ⟨n - 1, by omega⟩
    have hfirst : c.tryStep = c.step.map .ok := tryStep_of_not_stuck hc (h 0 (by omega))
    have hrest := ih ((halted_step c).trans hc) (Nat.lt_of_succ_lt_succ hk)
      (fun i hi => h (i + 1) (by omega)) hs
    rw [run_succ, hfirst, steps_succ]
    simp only [Outcome.map, hrest, Except.map, after_succ, List.append_assoc]

/-- A run that succeeded goes on as a run from where it stopped. -/
theorem run_add_of_ok {c : Cpu} {m : Nat} {a : UInt64} (h : (c.run m).value = .ok a) (n : Nat) :
    c.run (m + n) =
      ⟨((c.run m).cpu.run n).value.map (a + ·), ((c.run m).cpu.run n).cpu,
        (c.run m).events ++ ((c.run m).cpu.run n).events⟩ := by
  induction m generalizing c a with
  | zero =>
    have ha : a = 0 := by simpa using h.symm
    subst a
    simp only [Nat.zero_add, run_zero, List.nil_append, UInt64.zero_add]
    rcases c.run n with ⟨_ | _, d, events⟩ <;> rfl
  | succ m ih =>
    obtain ⟨k, b, ht, hr, rfl⟩ := exists_of_run_succ_ok h
    rw [Nat.add_right_comm, run_succ_of_ok ht, run_succ_of_ok ht, ih hr]
    cases ((c.tryStep.cpu.run m).cpu.run n).value <;> simp [Except.map, UInt64.add_assoc]

/-- A run that failed stays where it stopped, whatever steps were still allowed. -/
theorem run_add_of_error {c : Cpu} {m : Nat} {f : Fault} (h : (c.run m).value = .error f)
    (n : Nat) : c.run (m + n) = c.run m := by
  induction m generalizing c f with
  | zero => simp at h
  | succ m ih =>
    rw [Nat.add_right_comm]
    cases ht : c.tryStep.value with
    | error g => rw [run_succ_of_error ht, run_succ_of_error ht]
    | ok k =>
      cases hr : (c.tryStep.cpu.run m).value with
      | error g => rw [run_succ_of_ok ht, run_succ_of_ok ht, ih hr]
      | ok b => simp [run_succ_of_ok ht, hr, Except.map] at h

/-- A run that stops in front of a refused opcode has its fault as soon as it may go further. -/
theorem run_past_stuck {c : Cpu} {m n : Nat} {a : UInt64} (h : (c.run m).value = .ok a)
    (hc : (c.run m).cpu.state.halted = false) (hs : (c.run m).cpu.machine.Stuck) (hn : m < n) :
    (c.run n).value = .error (c.run m).cpu.refusal ∧ (c.run n).cpu = (c.run m).cpu.halt := by
  obtain ⟨l, rfl⟩ : ∃ l, n = m + (l + 1) := ⟨n - m - 1, by omega⟩
  have hstop := run_succ_of_error (congrArg Outcome.value (tryStep_of_stuck hc hs)) l
  rw [run_add_of_ok h, hstop, tryStep_of_stuck hc hs]
  exact ⟨rfl, rfl⟩

theorem run_value_le {c : Cpu} {n : Nat} {a : UInt64} (h : (c.run n).value = .ok a) :
    a.toNat ≤ Machine.cyclesBound * n := by
  induction n generalizing c a with
  | zero =>
    have ha : a = 0 := by simpa using h.symm
    subst a
    decide
  | succ n ih =>
    obtain ⟨k, b, ht, hr, rfl⟩ := exists_of_run_succ_ok h
    have hk := tryStep_value_le ht
    have hb := ih hr
    simp only [Machine.cyclesBound, UInt64.toNat_add, UInt64.toNat_ofNat'] at *
    omega

/-- Below 2^61 steps the total of a run is the sum of its cycles, with nothing lost. -/
theorem run_exact {c : Cpu} {n : Nat} (hn : n < 2 ^ 61) (hc : c.state.halted = false)
    (h : ∀ i < n, ¬ (c.after i).machine.Stuck) :
    (c.run n).map (·.map UInt64.toNat) = (steps n c).map .ok := by
  have hsum := steps_value_le n c
  have hfit : (steps n c).value < 2 ^ 64 := by
    simp only [Machine.cyclesBound] at hsum
    omega
  rw [run_of_not_stuck hc h]
  simp only [Outcome.map, Except.map, UInt64.toNat_ofNat_of_lt' hfit]

/-- Below 2^61 steps the total of a run in two parts is the sum of both totals. -/
theorem run_add_exact {c : Cpu} {m n : Nat} {a : UInt64} (hn : m + n < 2 ^ 61)
    (h : (c.run m).value = .ok a) :
    (c.run (m + n)).map (·.map UInt64.toNat) =
      ⟨((c.run m).cpu.run n).value.map fun b => a.toNat + b.toNat, ((c.run m).cpu.run n).cpu,
        (c.run m).events ++ ((c.run m).cpu.run n).events⟩ := by
  rw [run_add_of_ok h]
  cases hr : ((c.run m).cpu.run n).value with
  | error f => rfl
  | ok b =>
    have ha := run_value_le h
    have hb := run_value_le hr
    simp only [Machine.cyclesBound] at ha hb
    have hfit : a.toNat + b.toNat < 2 ^ 64 := by omega
    simp only [Outcome.map, Except.map, UInt64.toNat_add, Nat.mod_eq_of_lt hfit]

/-- A strict step is a run of length one. -/
theorem run_one (c : Cpu) : (c.run 1).map (·.map UInt64.toNat) = c.tryStep := by
  rcases ht : c.tryStep with ⟨f | k, d, events⟩
  · have hv : c.tryStep.value = .error f := by rw [ht]
    rw [run_succ_of_error hv, ht]
    rfl
  · have hv : c.tryStep.value = .ok k := by rw [ht]
    have hk := tryStep_value_le hv
    have hfit : k < 2 ^ 64 := by
      simp only [Machine.cyclesBound] at hk
      omega
    rw [run_succ_of_ok hv, ht]
    simp only [Outcome.map, run_zero, Except.map, UInt64.add_zero, List.append_nil,
      UInt64.toNat_ofNat_of_lt' hfit]

/-- Strict execution is the longest prefix of lenient execution that is safe. A run of `n` steps is
the lenient sequence while none of its steps is refused, and the first refused step ends it with the
fault and the halted mark; a strict step is a run of one; and a run in two parts is the whole run. -/
theorem run_longest_safe_prefix (c : Cpu) :
    (∀ n < 2 ^ 61, c.state.halted = false → (∀ i < n, ¬ (c.after i).machine.Stuck) →
      (c.run n).map (·.map UInt64.toNat) = (steps n c).map .ok) ∧
    (∀ n k, c.state.halted = false → k < n → (∀ i < k, ¬ (c.after i).machine.Stuck) →
      (c.after k).machine.Stuck →
      c.run n =
        ⟨.error (c.after k).refusal, (c.after k).halt,
          (steps k c).events ++ (c.after k).refuse.events⟩) ∧
    (c.run 1).map (·.map UInt64.toNat) = c.tryStep ∧
    (∀ m n a, m + n < 2 ^ 61 → (c.run m).value = .ok a →
      (c.run (m + n)).map (·.map UInt64.toNat) =
        ⟨((c.run m).cpu.run n).value.map fun b => a.toNat + b.toNat, ((c.run m).cpu.run n).cpu,
          (c.run m).events ++ ((c.run m).cpu.run n).events⟩) ∧
    (∀ m n f, (c.run m).value = .error f → c.run (m + n) = c.run m) := by
  refine ⟨?_, ?_, run_one c, ?_, ?_⟩
  · intro n hn hc h
    exact run_exact hn hc h
  · intro n k hc hk h hs
    exact run_of_stuck hc hk h hs
  · intro m n a hn h
    exact run_add_exact hn h
  · intro m n f h
    exact run_add_of_error h n

/-- Two instructions, and after them an opcode without a meaning. -/
def untilKil : Cpu := zero.onMemory (·.load 0 [0xA9, 0x01, 0xEA, 0x02])

theorem run_longest_safe_prefix_untilKil :
    untilKil.state.halted = false ∧ (∀ i < 2, ¬ (untilKil.after i).machine.Stuck) ∧
      (untilKil.after 2).machine.Stuck ∧
      ((untilKil.run 2).map (·.map UInt64.toNat)).value = .ok 4 ∧
      (untilKil.run 5).value = .error (.unassignedOpcode 0x02 3) := by
  have hhalted : untilKil.state.halted = false := by decide +kernel
  have hsafe : ∀ i < 2, ¬ (untilKil.after i).machine.Stuck := by decide +kernel
  have hstuck : (untilKil.after 2).machine.Stuck := by decide +kernel
  have hcycles : (steps 2 untilKil).value = 4 := by decide +kernel
  have hrefusal : (untilKil.after 2).refusal = .unassignedOpcode 0x02 3 := by decide +kernel
  obtain ⟨hlenient, hrefused, -⟩ := run_longest_safe_prefix untilKil
  refine ⟨hhalted, hsafe, hstuck, ?_, ?_⟩
  · rw [hlenient 2 (by decide) hhalted hsafe, ← hcycles]
    rfl
  · rw [hrefused 5 2 hhalted (by decide) hsafe hstuck, ← hrefusal]

end Cpu

end Mos6502
