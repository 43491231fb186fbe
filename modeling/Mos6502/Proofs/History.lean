import Mos6502.Proofs.Strict

/-!
# Histories

A history is a list of actions. Its moments are the single things that happened: every action is
one, except that a run counts as its strict steps. The moments of a history lead from where it
began to where it ended, so what every moment keeps holds at the end.
-/

namespace Mos6502

/-- One thing that happened, and the processor to which it did. -/
structure Moment where
  before : Cpu
  action : Action

namespace Moment

def after (x : Moment) : Cpu := (x.before.act x.action).cpu

/-- What was executed, if anything was: a strict step that is refused executes nothing. -/
def ran (x : Moment) : Option Activity :=
  match x.action with
  | .step => some x.before.machine.next
  | .tryStep =>
    if x.before.state.halted ∨ x.before.machine.Stuck then none else some x.before.machine.next
  | _ => none

/-- The operation of the instruction that was executed. -/
def executed (x : Moment) : Option Operation :=
  match x.ran with
  | some (.instruction f) => some f.row.operation
  | _ => none

end Moment

namespace Cpu

/-- The strict steps of a run; a fault is the last of them. -/
def runMoments : Nat → Cpu → List Moment
  | 0, _ => []
  | n + 1, c =>
    ⟨c, .tryStep⟩ ::
      match c.tryStep.value with
      | .error _ => []
      | .ok _ => runMoments n c.tryStep.cpu

def moments (c : Cpu) : Action → List Moment
  | .run limit => c.runMoments limit
  | a => [⟨c, a⟩]

/-- The processor after a history. -/
def acts (c : Cpu) : List Action → Cpu
  | [] => c
  | a :: history => (c.act a).cpu.acts history

/-- The moments of a history, in order. -/
def life (c : Cpu) : List Action → List Moment
  | [] => []
  | a :: history => c.moments a ++ (c.act a).cpu.life history

end Cpu

/-- The moments follow one another from `c` to `d`. -/
def Linked (c : Cpu) : List Moment → Cpu → Prop
  | [], d => c = d
  | x :: xs, d => x.before = c ∧ Linked x.after xs d

namespace Linked

variable {c d : Cpu} {xs ys zs : List Moment}

theorem single (c : Cpu) (a : Action) : Linked c [⟨c, a⟩] (c.act a).cpu := ⟨rfl, rfl⟩

theorem append {e : Cpu} (h : Linked c xs e) (h' : Linked e ys d) : Linked c (xs ++ ys) d := by
  induction xs generalizing c with
  | nil =>
    obtain rfl : c = e := h
    exact h'
  | cons x xs ih => exact ⟨h.1, ih h.2⟩

theorem split (h : Linked c (xs ++ ys) d) : ∃ e, Linked c xs e ∧ Linked e ys d := by
  induction xs generalizing c with
  | nil => exact ⟨c, rfl, h⟩
  | cons x xs ih =>
    obtain ⟨e, hxs, hys⟩ := ih h.2
    exact ⟨e, ⟨h.1, hxs⟩, hys⟩

/-- What lies between two moments leads from the one to the other. -/
theorem between {x y : Moment} (h : Linked c (xs ++ x :: (ys ++ y :: zs)) d) :
    Linked x.after ys y.before := by
  obtain ⟨e, -, hx⟩ := h.split
  obtain ⟨f, hys, hy⟩ := hx.2.split
  rw [hy.1]
  exact hys

/-- What every moment keeps, the whole list keeps. -/
theorem invariant {P : Cpu → Prop} (h : Linked c xs d)
    (hkeep : ∀ x ∈ xs, P x.before → P x.after) (hc : P c) : P d := by
  induction xs generalizing c with
  | nil =>
    obtain rfl : c = d := h
    exact hc
  | cons x xs ih =>
    have hx : P x.after := hkeep x (by simp) (h.1 ▸ hc)
    exact ih h.2 (fun y hy => hkeep y (by simp [hy])) hx

/-- What every moment keeps holds before and after each of them. -/
theorem forall_mem {P : Cpu → Prop} (h : Linked c xs d)
    (hkeep : ∀ x ∈ xs, P x.before → P x.after) (hc : P c) :
    ∀ x ∈ xs, P x.before ∧ P x.after := by
  induction xs generalizing c with
  | nil => simp
  | cons x xs ih =>
    have hbefore : P x.before := h.1 ▸ hc
    have hafter : P x.after := hkeep x (by simp) hbefore
    exact List.forall_mem_cons.mpr
      ⟨⟨hbefore, hafter⟩, ih h.2 (fun y hy => hkeep y (by simp [hy])) hafter⟩

end Linked

namespace Cpu

theorem linked_runMoments (n : Nat) (c : Cpu) : Linked c (c.runMoments n) (c.run n).cpu := by
  induction n generalizing c with
  | zero => rfl
  | succ n ih =>
    refine ⟨rfl, ?_⟩
    cases ht : c.tryStep.value with
    | error f =>
      rw [run_succ_of_error ht]
      rfl
    | ok k =>
      rw [run_succ_of_ok ht]
      exact ih c.tryStep.cpu

theorem linked_moments (c : Cpu) (a : Action) : Linked c (c.moments a) (c.act a).cpu := by
  cases a with
  | run limit => exact linked_runMoments limit c
  | _ => exact Linked.single c _

/-- The moments of a history lead from its beginning to its end. -/
theorem linked_life (c : Cpu) (history : List Action) :
    Linked c (c.life history) (c.acts history) := by
  induction history generalizing c with
  | nil => rfl
  | cons a history ih => exact (c.linked_moments a).append (ih _)

theorem action_of_mem_runMoments {n : Nat} {c : Cpu} {x : Moment} (hx : x ∈ c.runMoments n) :
    x.action = .tryStep := by
  induction n generalizing c with
  | zero => simp [runMoments] at hx
  | succ n ih =>
    rw [runMoments] at hx
    rcases List.mem_cons.mp hx with rfl | hx
    · rfl
    · cases ht : c.tryStep.value with
      | error f => simp [ht] at hx
      | ok k =>
        rw [ht] at hx
        exact ih hx

/-- No moment is a run. -/
theorem action_ne_run {c : Cpu} {history : List Action} {x : Moment} (hx : x ∈ c.life history)
    (n : Nat) : x.action ≠ .run n := by
  induction history generalizing c with
  | nil => simp [life] at hx
  | cons a history ih =>
    rcases List.mem_append.mp hx with hx | hx
    · cases a with
      | run limit => simp [action_of_mem_runMoments hx]
      | _ => simp_all [moments]
    · exact ih hx

/-- A moment is a strict step or an action of the history. -/
theorem action_of_mem_life {c : Cpu} {history : List Action} {x : Moment}
    (hx : x ∈ c.life history) : x.action = .tryStep ∨ x.action ∈ history := by
  induction history generalizing c with
  | nil => simp [life] at hx
  | cons a history ih =>
    rcases List.mem_append.mp hx with hx | hx
    · cases a with
      | run limit => exact .inl (action_of_mem_runMoments hx)
      | _ => simp_all [moments]
    · exact (ih hx).imp_right (List.mem_cons_of_mem a)

end Cpu

namespace Moment

/-- What ran was the next activity, and it did what a step does. -/
theorem act_of_ran {x : Moment} {act : Activity} (h : x.ran = some act) :
    x.before.machine.next = act ∧
      x.before.act x.action = x.before.step.map fun n => .cycles (UInt64.ofNat n) := by
  rcases x with ⟨c, a⟩
  cases a with
  | step => exact ⟨Option.some.inj h, rfl⟩
  | tryStep =>
    simp only [ran] at h
    split at h
    · cases h
    · rename_i hgo
      obtain ⟨hhalted, hstuck⟩ := not_or.mp hgo
      have hstep := Cpu.tryStep_of_not_stuck (by simpa using hhalted) hstuck
      refine ⟨Option.some.inj h, ?_⟩
      rw [Cpu.act, hstep]
      rfl
  | _ => cases h

theorem after_of_ran {x : Moment} {act : Activity} (h : x.ran = some act) :
    x.after = x.before.step.cpu := by
  rw [after, (act_of_ran h).2]
  rfl

theorem machine_after_of_ran {x : Moment} {act : Activity} (h : x.ran = some act) :
    x.before.machine.next = act ∧ x.after.machine = x.before.machine.step := by
  refine ⟨(act_of_ran h).1, ?_⟩
  rw [after_of_ran h]
  rfl

/-- A strict step that executes nothing is refused, the first time by halting. -/
theorem act_of_tryStep {x : Moment} (ha : x.action = .tryStep) (h : x.ran = none) :
    x.before.act x.action =
      if x.before.state.halted then ⟨.fault (.halted x.before.state.pc), x.before, []⟩
      else x.before.refuse.map .ofStep := by
  cases hc : x.before.state.halted with
  | true =>
    rw [ha, Cpu.act, Cpu.tryStep_of_halted hc]
    rfl
  | false =>
    have hs : x.before.machine.Stuck := by simpa [ran, ha, hc] using h
    rw [ha, Cpu.act, Cpu.tryStep_of_stuck hc hs]
    rfl

theorem after_of_tryStep {x : Moment} (ha : x.action = .tryStep) (h : x.ran = none) :
    x.after = x.before ∨ x.after = x.before.halt := by
  rw [after, act_of_tryStep ha h]
  split
  · exact .inl rfl
  · exact .inr rfl

theorem upcoming_of_executed {x : Moment} {op : Operation} (h : x.executed = some op) :
    x.before.machine.upcoming = some op ∧ x.after.machine = x.before.machine.step := by
  cases hran : x.ran with
  | none => simp [executed, hran] at h
  | some act =>
    obtain ⟨hnext, hstep⟩ := machine_after_of_ran hran
    refine ⟨?_, hstep⟩
    cases act with
    | entry i => simp [executed, hran] at h
    | instruction f =>
      rw [Machine.upcoming, hnext]
      simpa [executed, hran] using h

end Moment

end Mos6502
