import Mos6502.Proofs.History
import Mos6502.Proofs.Stack

/-!
# The break and unused bits

The live register has no break flag of its own. A pull drops that bit and sets the unused one, a
reset does the same, and nothing else that runs touches either, so from the first reset on the two
bits never change. On the stack they tell what pushed the status: PHP and BRK set both, an
interrupt entry sets the unused bit alone.
-/

namespace Mos6502

open Machine (stackAddress)

namespace Status

/-- The break and the unused bit. -/
def marks (p : Status) : Bool × Bool := (p.brk, p.unused)

theorem toByte_and_of_marks {p : Status} (h : p.marks = (false, true)) :
    p.toByte &&& 0x30 = 0x20 :=
  forall_of_bytes (P := fun p => p.marks = (false, true) → p.toByte &&& 0x30 = 0x20)
    (by decide +kernel) p h

/-- Once the unused bit is set, a push shows both bits as what pushed it wants them. -/
theorem pushed_and_of_marks {p : Status} (h : p.marks = (false, true)) (brk : Bool) :
    p.pushed brk &&& 0x30 = if brk then 0x30 else 0x20 :=
  forall_of_bytes
    (P := fun p => p.marks = (false, true) → ∀ brk : Bool,
      p.pushed brk &&& 0x30 = if brk then 0x30 else 0x20)
    (by decide +kernel) p h brk

/-- A status of that kind comes back from the stack as it went. -/
theorem pulled_pushed_of_marks {p : Status} (h : p.marks = (false, true)) (brk : Bool) :
    pulled (p.pushed brk) = p := by
  obtain ⟨hbrk, hunused⟩ := Prod.mk.inj h
  rw [pulled_pushed, ← hbrk, ← hunused]

end Status

/-- The action replaces the status, or flags of it, from outside. -/
def Action.setsStatus : Action → Bool
  | setStatus _ | setFlags _ _ => true
  | _ => false

namespace Machine

/-- PLP and RTI pull the two bits, and every other operation leaves them. -/
theorem marks_execute (m : Machine) (op : Operation) (mode : Mode) (a : UInt16) :
    (m.execute op mode a).state.status.marks = (false, true) ∨
      (m.execute op mode a).state.status.marks = m.state.status.marks := by
  cases op with
  | plp | rti => exact .inl rfl
  | load r => cases r <;> exact .inr rfl
  | transfer t => cases t <;> exact .inr rfl
  | logic l => cases l <;> exact .inr rfl
  | increment i => cases i <;> exact .inr rfl
  | decrement i => cases i <;> exact .inr rfl
  | shift k => rw [execute]; split <;> exact .inr rfl
  | branch b => rw [execute]; split <;> exact .inr rfl
  | flag c => cases c <;> exact .inr rfl
  | _ => exact .inr rfl

theorem marks_step (m : Machine) :
    m.step.state.status.marks = (false, true) ∨
      m.step.state.status.marks = m.state.status.marks := by
  rw [step]
  cases m.next with
  | entry i => exact .inr rfl
  | instruction f => exact marks_execute _ _ _ _

/-- Where the next step pushes the status, and whether as PHP and BRK do. -/
def statusPush (m : Machine) : Option (UInt16 × Bool) :=
  match m.state.serviceable with
  | some _ => some (stackAddress (m.state.sp - 2), false)
  | none =>
    match m.row.operation with
    | .php => some (stackAddress m.state.sp, true)
    | .brk => some (stackAddress (m.state.sp - 2), true)
    | _ => none

/-- The status is the last of the three bytes that an entry pushes. -/
theorem get_enter_status (m : Machine) (vector : UInt16) (brk : Bool) :
    (m.enter vector brk).memory.get (stackAddress (m.state.sp - 2)) =
      m.state.status.pushed brk := by
  have hsp : m.state.sp - 2 = m.state.sp - 1 - 1 := by grind
  rw [hsp]
  exact get_push_self (m.pushWord m.state.pc) _

theorem get_step_of_statusPush {m : Machine} {a : UInt16} {brk : Bool}
    (h : m.statusPush = some (a, brk)) : m.step.memory.get a = m.state.status.pushed brk := by
  cases hs : m.state.serviceable with
  | some i =>
    simp only [statusPush, hs, Option.some.injEq, Prod.mk.injEq] at h
    obtain ⟨rfl, rfl⟩ := h
    rw [step_of_serviceable hs, get_enter_status]
  | none =>
    have hop : m.upcoming = some m.row.operation := upcoming_eq_some_iff.mpr ⟨hs, rfl⟩
    simp only [statusPush, hs] at h
    rw [step_of_upcoming hop]
    cases hrow : m.row.operation with
    | php =>
      simp only [hrow, Option.some.injEq, Prod.mk.injEq] at h
      obtain ⟨rfl, rfl⟩ := h
      exact get_push_self (m.onState _) _
    | brk =>
      simp only [hrow, Option.some.injEq, Prod.mk.injEq] at h
      obtain ⟨rfl, rfl⟩ := h
      exact get_enter_status (m.onState _) _ true
    | _ => simp [hrow] at h

/-- RTI takes the status from above the stack pointer. -/
theorem status_step_of_rti {m : Machine} (h : m.upcoming = some .rti) :
    m.step.state.status = .pulled (m.memory.get (stackAddress (m.state.sp + 1))) := by
  rw [step_of_upcoming h]
  rfl

theorem statusPush_of_next_entry {m : Machine} {i : Interrupt} (h : m.next = .entry i) :
    m.statusPush = some (stackAddress (m.state.sp - 2), false) := by
  cases hs : m.state.serviceable with
  | some j => simp only [statusPush, hs]
  | none => simp [next_of_not_serviceable hs] at h

theorem statusPush_of_brk {m : Machine} (h : m.upcoming = some .brk) :
    m.statusPush = some (stackAddress (m.state.sp - 2), true) := by
  obtain ⟨hs, hop⟩ := upcoming_eq_some_iff.mp h
  simp only [statusPush, hs, hop]

end Machine

namespace Moment

variable {x : Moment}

/-- Whatever happens, short of setting the status, sets the two bits as a reset does or leaves
them. -/
theorem marks_after (hrun : ∀ n, x.action ≠ .run n) (hstatus : x.action.setsStatus = false) :
    x.after.state.status.marks = (false, true) ∨
      x.after.state.status.marks = x.before.state.status.marks := by
  cases hran : x.ran with
  | some act =>
    rw [Cpu.state, (machine_after_of_ran hran).2]
    exact x.before.machine.marks_step
  | none =>
    rcases x with ⟨c, a⟩
    cases a with
    | setStatus v => cases hstatus
    | setFlags mask on => cases hstatus
    | reset => exact .inl rfl
    | request i => exact .inr (congrArg (·.status.marks) (c.state.request_eq i))
    | step => cases hran
    | tryStep => rcases after_of_tryStep rfl hran with h | h <;> rw [h] <;> exact .inr rfl
    | run n => exact absurd rfl (hrun n)
    | _ => exact .inr rfl

theorem marks_after_reset (h : x.action = .reset) :
    x.after.state.status.marks = (false, true) := by
  rw [after, h]
  rfl

/-- The moment enters a handler. -/
def Traps (x : Moment) : Prop := (∃ i, x.ran = some (.entry i)) ∨ x.executed = some .brk

/-- What enters a handler leaves the status where an RTI with the old stack pointer finds it. -/
theorem Traps.statusPush (h : x.Traps) :
    x.after.machine = x.before.machine.step ∧
      ∃ brk, x.before.machine.statusPush =
        some (stackAddress (x.before.state.sp - 2), brk) := by
  rcases h with ⟨i, hran⟩ | hbrk
  · obtain ⟨hnext, hstep⟩ := machine_after_of_ran hran
    exact ⟨hstep, false, Machine.statusPush_of_next_entry hnext⟩
  · obtain ⟨hop, hstep⟩ := upcoming_of_executed hbrk
    exact ⟨hstep, true, Machine.statusPush_of_brk hop⟩

theorem get_after_of_statusPush {a : UInt16} {brk : Bool} (hran : x.ran.isSome)
    (h : x.before.machine.statusPush = some (a, brk)) :
    x.after.memory.get a = x.before.state.status.pushed brk := by
  obtain ⟨act, hact⟩ := Option.isSome_iff_exists.mp hran
  rw [Cpu.memory, (machine_after_of_ran hact).2]
  exact Machine.get_step_of_statusPush h

/-- A return brings back the status of the trap whose three bytes lie above its stack pointer. -/
theorem Traps.status_of_rti {y : Moment} (h : x.Traps)
    (hmarks : x.before.state.status.marks = (false, true)) (hrti : y.executed = some .rti)
    (hsp : y.before.state.sp = x.before.state.sp - 3)
    (hcell : y.before.memory.get (stackAddress (x.before.state.sp - 2)) =
      x.after.memory.get (stackAddress (x.before.state.sp - 2))) :
    y.after.state.status = x.before.state.status := by
  obtain ⟨hstep, brk, hpush⟩ := h.statusPush
  obtain ⟨hop, hreturn⟩ := upcoming_of_executed hrti
  have hpushed : x.after.memory.get (stackAddress (x.before.state.sp - 2)) =
      x.before.state.status.pushed brk := by
    rw [Cpu.memory, hstep]
    exact Machine.get_step_of_statusPush hpush
  have habove : y.before.machine.state.sp + 1 = x.before.state.sp - 2 := by
    change y.before.state.sp + 1 = _
    rw [hsp]
    grind
  rw [Cpu.state, hreturn, Machine.status_step_of_rti hop, habove]
  exact (congrArg Status.pulled (hcell.trans hpushed)).trans
    (Status.pulled_pushed_of_marks hmarks brk)

end Moment

namespace Cpu

/-- The break and unused bits over every history that does not set the status from outside. The live
register never shows a break flag and never loses the unused bit; from the first reset on it shows
exactly the unused bit. Hence a pushed status tells what pushed it, and a return from a handler
restores the status of the trap in every bit. -/
theorem live_status_history (history : List Action)
    (hstatus : ∀ a ∈ history, a.setsStatus = false) :
    (zero.acts history).state.status.brk = false ∧
    (∀ x ∈ zero.life history,
      x.before.state.status.brk = false ∧ x.after.state.status.brk = false) ∧
    (∀ xs x ys, zero.life history = xs ++ x :: ys → x.after.state.status.unused = true →
      ∀ y ∈ ys, y.before.state.status.unused = true ∧ y.after.state.status.unused = true) ∧
    ∀ xs r ys, zero.life history = xs ++ r :: ys → r.action = .reset →
      r.after.state.status.toByte &&& 0x30 = 0x20 ∧
      ∀ y ∈ ys,
        y.before.state.status.toByte &&& 0x30 = 0x20 ∧
        y.after.state.status.toByte &&& 0x30 = 0x20 ∧
        (y.ran.isSome → ∀ a brk, y.before.machine.statusPush = some (a, brk) →
          y.after.memory.get a &&& 0x30 = if brk then 0x30 else 0x20) ∧
        (y.Traps → ∀ z : Moment, z.executed = some .rti →
          z.before.state.sp = y.before.state.sp - 3 →
          z.before.memory.get (stackAddress (y.before.state.sp - 2)) =
            y.after.memory.get (stackAddress (y.before.state.sp - 2)) →
          z.after.state.status = y.before.state.status) := by
  have hmarks : ∀ x ∈ zero.life history, x.after.state.status.marks = (false, true) ∨
      x.after.state.status.marks = x.before.state.status.marks := by
    intro x hx
    refine Moment.marks_after (action_ne_run hx) ?_
    rcases action_of_mem_life hx with ha | ha
    · rw [ha]
      rfl
    · exact hstatus _ ha
  have hbrk : ∀ x ∈ zero.life history,
      x.before.state.status.brk = false → x.after.state.status.brk = false := by
    intro x hx hclear
    rcases hmarks x hx with h | h
    · exact congrArg Prod.fst h
    · exact (congrArg Prod.fst h).trans hclear
  have hlinked := linked_life zero history
  refine ⟨hlinked.invariant (P := (·.state.status.brk = false)) hbrk rfl,
    hlinked.forall_mem (P := (·.state.status.brk = false)) hbrk rfl, ?_, ?_⟩
  · intro xs x ys hlife hset
    rw [hlife] at hlinked hmarks
    obtain ⟨d, -, hx⟩ := hlinked.split
    refine hx.2.forall_mem (P := (·.state.status.unused = true)) (fun y hy hunused => ?_) hset
    rcases hmarks y (by simp [hy]) with h | h
    · exact congrArg Prod.snd h
    · exact (congrArg Prod.snd h).trans hunused
  · intro xs r ys hlife hreset
    rw [hlife] at hlinked hmarks
    obtain ⟨d, -, hr⟩ := hlinked.split
    have hfirst := Moment.marks_after_reset hreset
    have hlater := hr.2.forall_mem (P := (·.state.status.marks = (false, true)))
      (fun y hy hbefore => (hmarks y (by simp [hy])).elim id (·.trans hbefore)) hfirst
    refine ⟨Status.toByte_and_of_marks hfirst, fun y hy => ?_⟩
    obtain ⟨hbefore, hafter⟩ := hlater y hy
    refine ⟨Status.toByte_and_of_marks hbefore, Status.toByte_and_of_marks hafter, ?_, ?_⟩
    · intro hran a brk hpush
      rw [Moment.get_after_of_statusPush hran hpush]
      exact Status.pushed_and_of_marks hbefore brk
    · intro htraps z hrti hsp hcell
      exact htraps.status_of_rti hbefore hrti hsp hcell

/-- A reset, a BRK and an RTI as its handler. -/
def returning : List Action :=
  [.load irqVector [0x10, 0x00], .store 0x0010 0x40, .reset, .step, .step]

theorem life_returning :
    ∃ v w r y z, zero.life returning = [v, w, r, y, z] ∧ r.action = .reset ∧
      y.ran.isSome ∧ y.executed = some .brk ∧
      y.before.machine.statusPush = some (0x01FB, true) ∧
      z.executed = some .rti ∧ z.before.state.sp = y.before.state.sp - 3 ∧ z.before = y.after := by
  refine ⟨_, _, _, _, _, rfl, rfl, ?_, ?_, ?_, ?_, ?_, rfl⟩ <;> decide +kernel

theorem live_status_history_returning :
    (∀ a ∈ returning, a.setsStatus = false) ∧
      ∃ v w r y z, zero.life returning = [v, w, r, y, z] ∧ r.action = .reset ∧
        y.before.machine.statusPush = some (0x01FB, true) ∧
        y.after.memory.get 0x01FB &&& 0x30 = 0x30 ∧
        z.executed = some .rti ∧ z.after.state.status = y.before.state.status := by
  have hstatus : ∀ a ∈ returning, a.setsStatus = false := by decide
  obtain ⟨v, w, r, y, z, hlife, hreset, hran, hbrk, hpush, hrti, hsp, hnext⟩ := life_returning
  obtain ⟨-, hlater⟩ :=
    (live_status_history returning hstatus).2.2.2 [v, w] r [y, z] hlife hreset
  obtain ⟨-, -, hpushed, hback⟩ := hlater y (by simp)
  refine ⟨hstatus, v, w, r, y, z, hlife, hreset, hpush, hpushed hran _ true hpush, hrti, ?_⟩
  exact hback (.inr hbrk) z hrti hsp (by rw [hnext])

end Cpu

end Mos6502
