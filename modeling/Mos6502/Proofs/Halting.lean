import Mos6502.Proofs.Transcript

/-!
# The halted mark

A strict step that refuses an opcode sets the mark, and only a reset clears it. Under the mark
strict execution does nothing at all, whatever became of the opcode, the program counter and the
latch in the meantime; lenient execution does not see it. So the mark tells whether an opcode was
refused since the last reset.
-/

namespace Mos6502

/-- The answer to a refused opcode. -/
def Reply.Refuses (r : Reply) : Prop := ∃ opcode pc, r = .fault (.unassignedOpcode opcode pc)

/-- The actions that execute strictly. -/
def Action.Strict (a : Action) : Prop := a = .tryStep ∨ ∃ n, a = .run n

namespace Machine

def withHalted (m : Machine) (b : Bool) : Machine := m.onState ({ · with halted := b })

theorem resolve_withHalted (m : Machine) (b : Bool) (mode : Mode) :
    (m.withHalted b).resolve mode = m.resolve mode := by
  cases mode <;> rfl

theorem next_withHalted (m : Machine) (b : Bool) : (m.withHalted b).next = m.next := by
  have hfetch : (m.withHalted b).fetch = m.fetch :=
    congrArg (Fetched.mk _ _) (m.resolve_withHalted b _)
  rw [next, next, hfetch]
  rfl

theorem execute_withHalted (m : Machine) (b : Bool) (op : Operation) (mode : Mode) (a : UInt16) :
    (m.withHalted b).execute op mode a = (m.execute op mode a).withHalted b := by
  cases op with
  | load r => cases r <;> rfl
  | transfer t => cases t <;> rfl
  | logic l => cases l <;> rfl
  | increment i => cases i <;> rfl
  | decrement i => cases i <;> rfl
  | shift k => simp only [execute]; split <;> rfl
  | branch k =>
    have htaken : k.taken (m.withHalted b).state.status = k.taken m.state.status := rfl
    simp only [execute, htaken]
    split <;> rfl
  | _ => rfl

/-- Nothing that executes reads the mark. -/
theorem perform_withHalted (m : Machine) (b : Bool) (act : Activity) :
    (m.withHalted b).perform act = (m.perform act).withHalted b := by
  cases act with
  | entry i => rfl
  | instruction f => exact execute_withHalted (m.onState (·.advance _)) _ _ _ _

end Machine

namespace Cpu

def withHalted (c : Cpu) (b : Bool) : Cpu := c.onState ({ · with halted := b })

theorem withHalted_eq_self {c : Cpu} {b : Bool} (h : c.state.halted = b) : c.withHalted b = c := by
  subst h
  rfl

/-- A lenient step takes the mark along unread. -/
theorem step_withHalted (c : Cpu) (b : Bool) :
    (c.withHalted b).step.value = c.step.value ∧
      (c.withHalted b).step.cpu = c.step.cpu.withHalted b ∧
      (c.withHalted b).step.events.map Event.shown = c.step.events.map Event.shown := by
  have hnext : (c.withHalted b).machine.next = c.machine.next := c.machine.next_withHalted b
  have hafter : (c.withHalted b).machine.perform c.machine.next =
      (c.machine.perform c.machine.next).withHalted b := c.machine.perform_withHalted b _
  simp only [step, hnext, hafter]
  refine ⟨?_, ?_, ?_⟩
  · cases c.machine.next <;> rfl
  · cases c.machine.next <;> rfl
  · cases c.machine.next with
    | entry i => rfl
    | instruction f =>
      simp only [report]
      cases f.row.kind <;> rfl

/-- With the mark cleared and set again around it, a lenient step of a halted processor is the step
that it is. -/
theorem step_of_halted {c : Cpu} (h : c.state.halted = true) :
    c.step.value = (c.withHalted false).step.value ∧
      c.step.cpu = (c.withHalted false).step.cpu.withHalted true ∧
      c.step.events.map Event.shown = (c.withHalted false).step.events.map Event.shown := by
  have hback : (c.withHalted false).withHalted true = c := withHalted_eq_self h
  have hstep := (c.withHalted false).step_withHalted true
  rwa [hback] at hstep

/-- Under the mark a run ends before its first step. -/
theorem run_of_halted {c : Cpu} (h : c.state.halted = true) (n : Nat) :
    c.run (n + 1) = ⟨.error (.halted c.state.pc), c, []⟩ := by
  have hfirst := tryStep_of_halted h
  rw [run_succ, hfirst]

/-- A strict step that refuses an opcode does nothing but set the mark, which was clear. -/
theorem tryStep_of_refused {c : Cpu} {opcode : UInt8} {pc : UInt16}
    (h : c.tryStep.value = .error (.unassignedOpcode opcode pc)) :
    c.state.halted = false ∧ c.tryStep.cpu = c.withHalted true := by
  cases hc : c.state.halted with
  | true => simp [tryStep_of_halted hc] at h
  | false =>
    refine ⟨rfl, ?_⟩
    by_cases hs : c.machine.Stuck
    · rw [tryStep_of_stuck hc hs]
      rfl
    · simp [tryStep_of_not_stuck hc hs, Outcome.map] at h

/-- A strict step sets the mark exactly when it refuses. -/
theorem halted_tryStep (c : Cpu) :
    c.tryStep.cpu.state.halted = true ↔
      c.state.halted = true ∨ (Reply.ofStep c.tryStep.value).Refuses := by
  cases hc : c.state.halted with
  | true => simp [tryStep_of_halted hc, hc]
  | false =>
    by_cases hs : c.machine.Stuck
    · rw [tryStep_of_stuck hc hs]
      simp only [Bool.false_eq_true, false_or]
      exact ⟨fun _ => ⟨_, _, rfl⟩, fun _ => rfl⟩
    · have hmark : c.step.cpu.state.halted = false := (halted_step c).trans hc
      rw [tryStep_of_not_stuck hc hs]
      simp [Outcome.map, hmark, Reply.ofStep, Reply.Refuses]

/-- So does a run, wherever in it the refused step was. -/
theorem halted_run (c : Cpu) (n : Nat) :
    (c.run n).cpu.state.halted = true ↔
      c.state.halted = true ∨ (Reply.ofRun (c.run n).value).Refuses := by
  induction n generalizing c with
  | zero => simp [Reply.ofRun, Reply.Refuses]
  | succ n ih =>
    have hfirst := halted_tryStep c
    cases ht : c.tryStep.value with
    | error f =>
      rw [ht] at hfirst
      rw [run_succ_of_error ht]
      exact hfirst
    | ok k =>
      have hgoes : c.tryStep.cpu.state.halted = true ↔ c.state.halted = true := by
        simpa [ht, Reply.ofStep, Reply.Refuses] using hfirst
      rw [run_succ_of_ok ht, ih, hgoes]
      cases (c.tryStep.cpu.run n).value <;> simp [Except.map, Reply.ofRun, Reply.Refuses]

/-- What an action makes of the mark: a reset clears it, a refusal sets it, and nothing else touches
it. -/
theorem halted_act (c : Cpu) (a : Action) :
    (c.act a).cpu.state.halted = true ↔
      (c.state.halted = true ∧ a ≠ .reset) ∨ (a.Strict ∧ (c.act a).value.Refuses) := by
  cases a with
  | reset => simp [act, reset, Outcome.map, Machine.reset, State.reset, State.zero, Action.Strict]
  | request i =>
    have hmark : (c.act (.request i)).cpu.state.halted = c.state.halted := by
      change (c.state.request i).halted = c.state.halted
      rw [State.request_eq]
    simp [hmark, Action.Strict]
  | step =>
    have hmark : (c.act .step).cpu.state.halted = c.state.halted := halted_step c
    simp [hmark, Action.Strict]
  | tryStep =>
    have hmark := halted_tryStep c
    simpa [act, Outcome.map, Action.Strict] using hmark
  | run n =>
    have hmark := halted_run c n
    simpa [act, Outcome.map, Action.Strict] using hmark
  | _ => simp [act, Outcome.quiet, onState, Machine.onState, onMemory, Action.Strict]

/-- Some strict action of the history was refused and no reset followed. -/
def RefusedSinceReset (c : Cpu) (history : List Action) : Prop :=
  ∃ xs a ys, history = xs ++ a :: ys ∧ a.Strict ∧ ((c.acts xs).act a).value.Refuses ∧
    .reset ∉ ys

theorem refusedSinceReset_nil (c : Cpu) : ¬ c.RefusedSinceReset [] := by
  rintro ⟨xs, a, ys, h, -⟩
  simp at h

/-- The refusal was the first action or came later. -/
theorem refusedSinceReset_cons (c : Cpu) (a : Action) (history : List Action) :
    c.RefusedSinceReset (a :: history) ↔
      (a.Strict ∧ (c.act a).value.Refuses ∧ .reset ∉ history) ∨
        (c.act a).cpu.RefusedSinceReset history := by
  constructor
  · rintro ⟨xs, b, ys, h, hlater⟩
    cases xs with
    | nil =>
      obtain ⟨rfl, rfl⟩ := List.cons.inj h
      exact .inl hlater
    | cons x xs =>
      obtain ⟨rfl, rfl⟩ := List.cons.inj h
      exact .inr ⟨xs, b, ys, rfl, hlater⟩
  · rintro (hfirst | ⟨xs, b, ys, rfl, hlater⟩)
    · exact ⟨[], a, history, rfl, hfirst⟩
    · exact ⟨a :: xs, b, ys, rfl, hlater⟩

/-- The mark is set at the end when it was set at first and never cleared, or was set on the way. -/
theorem halted_acts (c : Cpu) (history : List Action) :
    (c.acts history).state.halted = true ↔
      (c.state.halted = true ∧ .reset ∉ history) ∨ c.RefusedSinceReset history := by
  induction history generalizing c with
  | nil => simp [acts, refusedSinceReset_nil]
  | cons a history ih =>
    rw [acts, ih, halted_act, refusedSinceReset_cons, List.mem_cons, not_or, or_and_right,
      and_assoc, and_assoc, or_assoc, ne_comm]

/-- The halted mark is sticky and inert. After any history it is set exactly when a strict step or a
run refused an opcode and no reset followed. While it is set, strict execution faults at the program
counter and changes and reports nothing, a run of no steps succeeds, a lenient step does what it
would do without the mark, and only a reset clears it. The refusal itself changes nothing else. -/
theorem halted_iff_refusedSinceReset (history : List Action) (c : Cpu) :
    ((zero.acts history).state.halted = true ↔ zero.RefusedSinceReset history) ∧
    (c.state.halted = true →
      c.tryStep = ⟨.error (.halted c.state.pc), c, []⟩ ∧
      (∀ n, c.run (n + 1) = ⟨.error (.halted c.state.pc), c, []⟩) ∧
      c.run 0 = ⟨.ok 0, c, []⟩ ∧
      (c.step.value = (c.withHalted false).step.value ∧
        c.step.cpu = (c.withHalted false).step.cpu.withHalted true ∧
        c.step.events.map Event.shown = (c.withHalted false).step.events.map Event.shown) ∧
      ∀ a, (c.act a).cpu.state.halted = false ↔ a = .reset) ∧
    ∀ opcode pc, c.tryStep.value = .error (.unassignedOpcode opcode pc) →
      c.state.halted = false ∧ c.tryStep.cpu = c.withHalted true := by
  refine ⟨?_, ?_, fun opcode pc => tryStep_of_refused⟩
  · have hzero : zero.state.halted ≠ true := by decide
    simp [halted_acts, hzero]
  · intro h
    refine ⟨tryStep_of_halted h, run_of_halted h, run_zero c, step_of_halted h, fun a => ?_⟩
    constructor
    · intro hclear
      by_contra hne
      have hkept := (halted_act c a).mpr (.inl ⟨h, hne⟩)
      rw [hclear] at hkept
      cases hkept
    · rintro rfl
      rfl

/-- KIL is refused, and then it is overwritten and an NMI comes. -/
def patched : List Action := [.load 0 [0x02], .tryStep, .store 0 0xEA, .request .nmi]

theorem halted_iff_refusedSinceReset_patched :
    (zero.acts patched).state.halted = true ∧
      ((zero.acts patched).run 5).value = .error (.halted 0) ∧
      ((zero.acts patched).run 5).cpu.state.pending = some .nmi ∧
      (zero.acts patched).step.cpu.state.halted = true ∧
      ((zero.acts [.load 0 [0x02]]).tryStep.cpu =
        (zero.acts [.load 0 [0x02]]).withHalted true) := by
  have hrefused : zero.RefusedSinceReset patched :=
    ⟨[.load 0 [0x02]], .tryStep, _, rfl, .inl rfl, ⟨0x02, 0, by decide +kernel⟩, by decide⟩
  obtain ⟨hiff, hinert, -⟩ := halted_iff_refusedSinceReset patched (zero.acts patched)
  have hhalted := hiff.mpr hrefused
  obtain ⟨-, hrun, -, ⟨-, hstep, -⟩, -⟩ := hinert hhalted
  have hfirst : (zero.acts [.load 0 [0x02]]).tryStep.value =
      .error (.unassignedOpcode 0x02 0) := by decide +kernel
  refine ⟨hhalted, ?_, ?_, ?_, ?_⟩
  · rw [hrun 4]
    exact congrArg (Except.error ∘ Fault.halted) (by decide +kernel)
  · rw [hrun 4]
    decide +kernel
  · rw [hstep]
    rfl
  · exact ((halted_iff_refusedSinceReset [] _).2.2 _ _ hfirst).2

end Cpu

end Mos6502
