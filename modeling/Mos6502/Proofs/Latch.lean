import Mos6502.Proofs.History

/-!
# The latch

An entry empties the latch and disables interrupts, and of all instructions only BRK empties it.
Apart from what runs, a request fills the latch and a reset empties it. Hence no request is lost and
none is answered twice, except where these rules say so.
-/

namespace Mos6502

namespace Moment

/-- A lenient step, or a strict step of a processor that is not halted. -/
def Steps (x : Moment) : Prop :=
  x.action = .step ∨ x.action = .tryStep ∧ x.before.state.halted = false

/-- An interrupt was entered. -/
def entered (x : Moment) : Bool :=
  match x.ran with
  | some (.entry _) => true
  | _ => false

/-- An interrupt was requested. -/
def requested (x : Moment) : Bool :=
  match x.action with
  | .request _ => true
  | _ => false

/-- What a moment is to the latch, and the latch after it. -/
inductive Latching (x : Moment) : Prop where
  | entry (i : Interrupt) (hran : x.ran = some (.entry i))
      (hfree : x.before.state.serviceable = some i) (hlatch : x.after.state.pending = none)
      (hmask : x.after.state.status.irqDisable = true)
  | instruction (f : Fetched) (hran : x.ran = some (.instruction f))
      (hfree : x.before.state.serviceable = none)
      (hlatch : x.after.state.pending =
        if f.row.operation = .brk then none else x.before.state.pending)
  | request (i : Interrupt) (hran : x.ran = none) (haction : x.action = .request i)
      (hlatch : x.after.state.pending = (x.before.state.request i).pending)
  | reset (hran : x.ran = none) (haction : x.action = .reset)
      (hlatch : x.after.state.pending = none)
  | quiet (hran : x.ran = none) (hlatch : x.after.state.pending = x.before.state.pending)

variable {x : Moment}

/-- What runs decides the latch. -/
theorem latching_of_ran {act : Activity} (h : x.ran = some act) : x.Latching := by
  obtain ⟨hnext, hstep⟩ := machine_after_of_ran h
  cases hs : x.before.machine.state.serviceable with
  | some i =>
    have hentry : x.after.machine = x.before.machine.enter i.vector false :=
      hstep.trans (Machine.step_of_serviceable hs)
    rw [Machine.next_of_serviceable hs] at hnext
    subst act
    exact .entry i h hs (by rw [Cpu.state, hentry]; rfl) (by rw [Cpu.state, hentry]; rfl)
  | none =>
    have hop : x.before.machine.upcoming = some x.before.machine.row.operation :=
      Machine.upcoming_eq_some_iff.mpr ⟨hs, rfl⟩
    rw [Machine.next_of_not_serviceable hs] at hnext
    subst act
    refine .instruction x.before.machine.fetch h hs ?_
    rw [Cpu.state, hstep, Machine.step_of_upcoming hop, Machine.pending_execute]
    rfl

/-- Where nothing runs, only a request and a reset touch the latch. -/
theorem latching_of_ran_eq_none (hrun : ∀ n, x.action ≠ .run n) (h : x.ran = none) :
    x.Latching := by
  rcases x with ⟨c, a⟩
  cases a with
  | request i => exact .request i h rfl rfl
  | reset => exact .reset h rfl rfl
  | step => cases h
  | tryStep =>
    rcases after_of_tryStep rfl h with hsame | hhalt
    · exact .quiet h (by rw [hsame])
    · exact .quiet h (by rw [hhalt]; rfl)
  | run n => exact absurd rfl (hrun n)
  | _ => exact .quiet h rfl

theorem latching (hrun : ∀ n, x.action ≠ .run n) : x.Latching := by
  cases h : x.ran with
  | none => exact latching_of_ran_eq_none hrun h
  | some act => exact latching_of_ran h

/-- An NMI stays until it is entered or the processor is reset. -/
theorem Latching.nmi (hx : x.Latching) (h : x.before.state.pending = some .nmi) :
    x.after.state.pending = some .nmi ∨ x.action = .reset ∨ x.ran = some (.entry .nmi) := by
  have hnmi : x.before.state.serviceable = some .nmi :=
    State.serviceable_eq_some_iff.mpr ⟨h, by simp⟩
  cases hx with
  | entry i hran hfree => exact .inr (.inr (by rw [hran, Option.some.inj (hfree.symm.trans hnmi)]))
  | instruction f hran hfree => cases hfree.symm.trans hnmi
  | request i hran haction hlatch =>
    refine .inl (hlatch.trans ?_)
    cases i <;> simp [State.request, h]
  | reset hran haction => exact .inr (.inl haction)
  | quiet hran hlatch => exact .inl (hlatch.trans h)

/-- No instruction executes while an NMI is latched. -/
theorem Latching.executed_of_nmi (hx : x.Latching) (h : x.before.state.pending = some .nmi) :
    x.executed = none := by
  cases hx with
  | entry i hran => rw [executed, hran]
  | instruction f hran hfree =>
    cases hfree.symm.trans (State.serviceable_eq_some_iff.mpr ⟨h, by simp⟩)
  | request i hran => rw [executed, hran]
  | reset hran => rw [executed, hran]
  | quiet hran => rw [executed, hran]

/-- An IRQ leaves by its entry, by BRK while interrupts are disabled, by a later NMI or by a
reset. -/
theorem Latching.irq (hx : x.Latching) (h : x.before.state.pending = some .irq) :
    x.after.state.pending = some .irq ∨
      (x.ran = some (.entry .irq) ∧ x.before.state.status.irqDisable = false) ∨
      (x.executed = some .brk ∧ x.before.state.status.irqDisable = true) ∨
      x.action = .request .nmi ∨ x.action = .reset := by
  cases hx with
  | entry i hran hfree =>
    obtain ⟨hi, hmask⟩ := State.serviceable_eq_some_iff.mp hfree
    obtain rfl : i = .irq := Option.some.inj (hi.symm.trans h)
    exact .inr (.inl ⟨hran, hmask rfl⟩)
  | instruction f hran hfree hlatch =>
    by_cases hbrk : f.row.operation = .brk
    · -- an instruction runs over a latched IRQ only where the mask held it back
      refine .inr (.inr (.inl ⟨by rw [executed, hran, ← hbrk], ?_⟩))
      cases hmask : x.before.state.status.irqDisable with
      | true => rfl
      | false => cases hfree.symm.trans (State.serviceable_eq_some_iff.mpr ⟨h, fun _ => hmask⟩)
    · rw [if_neg hbrk] at hlatch
      exact .inl (hlatch.trans h)
  | request i hran haction hlatch =>
    cases i with
    | nmi => exact .inr (.inr (.inr (.inl haction)))
    | irq =>
      refine .inl (hlatch.trans ?_)
      simp only [State.request]
      split
      · exact h
      · rfl
  | reset hran haction => exact .inr (.inr (.inr (.inr haction)))
  | quiet hran hlatch => exact .inl (hlatch.trans h)

/-- An entry answers what was latched, the mask permitting, and leaves the latch empty and
interrupts disabled. -/
theorem Latching.of_entry {i : Interrupt} (hx : x.Latching) (h : x.ran = some (.entry i)) :
    x.before.state.serviceable = some i ∧ x.after.state.pending = none ∧
      x.after.state.status.irqDisable = true := by
  cases hx with
  | entry j hran hfree hlatch hmask =>
    obtain rfl : j = i := by simpa [hran] using h
    exact ⟨hfree, hlatch, hmask⟩
  | instruction f hran => simp [hran] at h
  | request j hran => simp [hran] at h
  | reset hran => simp [hran] at h
  | quiet hran => simp [hran] at h

/-- The latch stays empty without a request. -/
theorem Latching.empty (hx : x.Latching) (h : x.before.state.pending = none)
    (hrequest : ∀ i, x.action ≠ .request i) : x.after.state.pending = none := by
  cases hx with
  | entry i hran hfree hlatch => exact hlatch
  | instruction f hran hfree hlatch => simp [hlatch, h]
  | request i hran haction => exact absurd haction (hrequest i)
  | reset hran haction hlatch => exact hlatch
  | quiet hran hlatch => exact hlatch.trans h

/-- An entry takes a request from the latch, and only a request puts one there. -/
theorem Latching.count (hx : x.Latching) :
    (if x.entered then 1 else 0) + x.after.state.pending.isSome.toNat ≤
      x.before.state.pending.isSome.toNat + if x.requested then 1 else 0 := by
  cases hx with
  | entry i hran hfree hlatch =>
    have hlatched := (State.serviceable_eq_some_iff.mp hfree).1
    simp [entered, hran, hlatch, hlatched]
  | instruction f hran hfree hlatch =>
    by_cases hbrk : f.row.operation = .brk
    · simp [entered, hran, hlatch, hbrk]
    · simp [entered, hran, hlatch, hbrk]
  | request i hran haction =>
    have hbit := Bool.toNat_le x.after.state.pending.isSome
    simp only [entered, hran, requested, haction, ↓reduceIte, Bool.false_eq_true]
    omega
  | reset hran haction hlatch => simp [entered, hran, hlatch]
  | quiet hran hlatch => simp [entered, hran, hlatch]

/-- A step with an NMI latched enters it, whatever the mask and the opcode. -/
theorem ran_of_nmi (hx : x.Steps) (h : x.before.state.pending = some .nmi) :
    x.ran = some (.entry .nmi) := by
  have hnmi : x.before.machine.state.serviceable = some .nmi :=
    State.serviceable_eq_some_iff.mpr ⟨h, by simp⟩
  rcases hx with ha | ⟨ha, hc⟩
  · simp [ran, ha, Machine.next_of_serviceable hnmi]
  · simp [ran, ha, hc, Machine.Stuck, hnmi, Machine.next_of_serviceable hnmi]

/-- A step with nothing latched executes an instruction, unless it is refused. -/
theorem ran_of_empty (hx : x.Steps) (h : x.before.state.pending = none) :
    (∃ f, x.ran = some (.instruction f)) ∨ x.action = .tryStep ∧ x.before.machine.Stuck := by
  have hfree : x.before.machine.state.serviceable = none := by simp [State.serviceable, h]
  rcases hx with ha | ⟨ha, hc⟩
  · exact .inl ⟨x.before.machine.fetch, by simp [ran, ha, Machine.next_of_not_serviceable hfree]⟩
  · by_cases hs : x.before.machine.Stuck
    · exact .inr ⟨ha, hs⟩
    · exact .inl ⟨x.before.machine.fetch,
        by simp [ran, ha, hc, hs, Machine.next_of_not_serviceable hfree]⟩

end Moment

/-- Entries and the latch together never get ahead of requests and what was latched at first. -/
theorem Linked.count {c d : Cpu} {xs : List Moment} (h : Linked c xs d)
    (hxs : ∀ x ∈ xs, x.Latching) :
    xs.countP Moment.entered + d.state.pending.isSome.toNat ≤
      c.state.pending.isSome.toNat + xs.countP Moment.requested := by
  induction xs generalizing c with
  | nil =>
    obtain rfl : c = d := h
    simp
  | cons x xs ih =>
    obtain ⟨rfl, hrest⟩ := h
    have hfirst := (hxs x (by simp)).count
    have hlater := ih hrest (fun y hy => hxs y (by simp [hy]))
    rw [List.countP_cons, List.countP_cons]
    omega

namespace Cpu

/-- The latch over every history. An NMI that is latched stays until its entry or a reset, and the
next step enters it; an IRQ that is latched leaves by its entry, by BRK while interrupts are
disabled, by a later NMI or by a reset; an entry empties the latch and disables interrupts, so the
next step executes an instruction unless a request comes first; and there are never more entries,
the one in the latch included, than requests. -/
theorem latch_history (history : List Action) :
    (∀ x ∈ zero.life history,
      (x.before.state.pending = some .nmi →
        (x.after.state.pending = some .nmi ∨ x.action = .reset ∨ x.ran = some (.entry .nmi)) ∧
        (x.Steps → x.ran = some (.entry .nmi)) ∧ x.executed = none) ∧
      (x.before.state.pending = some .irq →
        x.after.state.pending = some .irq ∨
        (x.ran = some (.entry .irq) ∧ x.before.state.status.irqDisable = false) ∨
        (x.executed = some .brk ∧ x.before.state.status.irqDisable = true) ∨
        x.action = .request .nmi ∨ x.action = .reset) ∧
      (∀ i, x.ran = some (.entry i) →
        (i = .irq → x.before.state.status.irqDisable = false) ∧
        x.after.state.pending = none ∧ x.after.state.status.irqDisable = true)) ∧
    (∀ xs x ys y zs, zero.life history = xs ++ x :: (ys ++ y :: zs) → y.Steps →
      (x.after.state.pending = some .nmi → (∀ z ∈ ys, z.ran = none ∧ z.action ≠ .reset) →
        y.ran = some (.entry .nmi)) ∧
      (∀ i, x.ran = some (.entry i) → (∀ z ∈ ys, ∀ j, z.action ≠ .request j) →
        (∃ f, y.ran = some (.instruction f)) ∨ y.action = .tryStep ∧ y.before.machine.Stuck)) ∧
    (∀ xs ys, zero.life history = xs ++ ys →
      ∃ d, Linked zero xs d ∧ Linked d ys (zero.acts history) ∧
        xs.countP Moment.entered + d.state.pending.isSome.toNat ≤
          xs.countP Moment.requested) := by
  have hlatching : ∀ x ∈ zero.life history, x.Latching :=
    fun x hx => Moment.latching (action_ne_run hx)
  have hlinked := linked_life zero history
  refine ⟨?_, ?_, ?_⟩
  · intro x hx
    have hl := hlatching x hx
    refine ⟨?_, hl.irq, ?_⟩
    · intro h
      exact ⟨hl.nmi h, fun hs => Moment.ran_of_nmi hs h, hl.executed_of_nmi h⟩
    · intro i hran
      obtain ⟨hfree, hlatch, hmask⟩ := hl.of_entry hran
      exact ⟨(State.serviceable_eq_some_iff.mp hfree).2, hlatch, hmask⟩
  · intro xs x ys y zs hlife hy
    rw [hlife] at hlinked hlatching
    have hbetween : ∀ z ∈ ys, z.Latching := fun z hz => hlatching z (by simp [hz])
    constructor
    · -- nothing between the two moments takes the NMI out of the latch
      intro hnmi hys
      have hstays := hlinked.between.invariant (P := (·.state.pending = some .nmi))
        (fun z hz hp => by
          rcases (hbetween z hz).nmi hp with hafter | hreset | hran
          · exact hafter
          · exact absurd hreset (hys z hz).2
          · simp [(hys z hz).1] at hran) hnmi
      exact Moment.ran_of_nmi hy hstays
    · -- nothing between the two moments puts a request into the latch
      intro i hran hys
      have hempty := ((hlatching x (by simp)).of_entry hran).2.1
      have hstays := hlinked.between.invariant (P := (·.state.pending = none))
        (fun z hz hp => (hbetween z hz).empty hp (hys z hz)) hempty
      exact Moment.ran_of_empty hy hstays
  · intro xs ys hlife
    rw [hlife] at hlinked hlatching
    obtain ⟨d, hxs, hys⟩ := hlinked.split
    refine ⟨d, hxs, hys, ?_⟩
    have hcount := hxs.count (fun x hx => hlatching x (by simp [hx]))
    have hzero : zero.state.pending.isSome.toNat = 0 := rfl
    omega

/-- An NMI comes while interrupts are disabled, and two steps follow. -/
def answered : List Action := [.request .nmi, .setFlags 0x04 true, .step, .step]

theorem latch_history_answered :
    ∃ x z y w, zero.life answered = [x, z, y, w] ∧ x.after.state.pending = some .nmi ∧
      y.ran = some (.entry .nmi) ∧ ∃ f, w.ran = some (.instruction f) := by
  refine ⟨_, _, _, _, rfl, rfl, ?_, ?_⟩
  · have hnext := (latch_history answered).2.1 [] _ [_] _ [_] rfl (.inl rfl)
    exact hnext.1 rfl (by simp [Moment.ran])
  · have hnext := (latch_history answered).2.1 [_, _] _ [] _ [] rfl (.inl rfl)
    exact (hnext.2 .nmi rfl (by simp)).resolve_right (by simp)

end Cpu

end Mos6502
