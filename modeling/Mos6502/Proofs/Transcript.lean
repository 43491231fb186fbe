import Mathlib.Algebra.GroupWithZero.Nat
import Mathlib.Data.List.Basic
import Mos6502.Proofs.History
import Mos6502.Proofs.Readback

/-!
# Totals and the log

The two totals and the log are a transcript of what happened. The cycles are those of the steps that
executed, the other total counts the steps that passed over an opcode without effect, and neither
wraps within 2^61 steps. The log has for every moment the lines that `Moment.shown` spells out, in
order, and nothing else; the line of an instruction reads back as what was there before it.
-/

namespace Mos6502

open Text

/-- An event as the log shows it. -/
def Event.shown (e : Event) : Level × String := (e.level, e.text)

/-- The log of a history. -/
def Cpu.log (c : Cpu) : List Action → List Event
  | [] => []
  | a :: history => (c.act a).events ++ (c.act a).cpu.log history

namespace Moment

variable {x : Moment}

/-- What was reported. -/
def reported (x : Moment) : List Event := (x.before.act x.action).events

/-- The cycles of the step that executed, if one did. -/
def cost (x : Moment) : Nat :=
  match x.ran with
  | some _ => x.before.step.value
  | none => 0

/-- The step that executed fetched a stub or an unassigned opcode. -/
def passedOver (x : Moment) : Bool :=
  match x.ran with
  | some (.instruction f) => f.row.kind == .stub || f.row.kind == .unassigned
  | _ => false

/-- The line of the instruction that comes next, column by column. -/
def instructionLine (x : Moment) : String :=
  let s := x.before.state
  let opcode := x.before.memory.get s.pc
  hex4 s.pc ++ "  " ++ hex2 opcode ++ " " ++ (Opcode.decode opcode).mnemonic ++ "  A:" ++
    hex2 s.a ++ " X:" ++ hex2 s.x ++ " Y:" ++ hex2 s.y ++ " P:" ++ hex2 s.status.toByte ++
    " SP:" ++ hex2 s.sp ++ " CYC:" ++ x.before.cycles.toNat.repr

/-- The lines that a moment leaves in the log, from the registers and the opcode before it. -/
def shown (x : Moment) : List (Level × String) :=
  let pc := hex4 x.before.state.pc
  let opcode := x.before.memory.get x.before.state.pc
  let mnemonic := (Opcode.decode opcode).mnemonic
  match x.ran with
  | some (.entry i) =>
    [(.debug, "interrupt entry via 0x" ++ hex4 i.vector ++ ": return PC 0x" ++ pc ++ " -> 0x" ++
      hex4 x.after.state.pc)]
  | some (.instruction _) =>
    (.trace, x.instructionLine) ::
      match (Opcode.decode opcode).kind with
      | .official | .unofficial => []
      | .stub =>
        [(.debug, "0x" ++ pc ++ ": " ++ mnemonic ++ " (0x" ++ hex2 opcode ++ ") executed as no-op")]
      | .unassigned =>
        [(.warn, "0x" ++ pc ++ ": unassigned opcode 0x" ++ hex2 opcode ++ " (" ++ mnemonic ++
          ") skipped")]
  | none =>
    match x.action with
    | .reset => [(.debug, "reset: PC=0x" ++ hex4 x.after.state.pc)]
    | .tryStep =>
      if x.before.state.halted then []
      else [(.warn, "0x" ++ pc ++ ": unassigned opcode 0x" ++ hex2 opcode ++ ", halting")]
    | _ => []

/-- What is fetched is the opcode under the program counter. -/
theorem eq_fetch_of_ran {f : Fetched} (h : x.ran = some (.instruction f)) :
    f = x.before.machine.fetch := by
  have hnext := (act_of_ran h).1
  cases hs : x.before.machine.state.serviceable with
  | some i => simp [Machine.next_of_serviceable hs] at hnext
  | none =>
    rw [Machine.next_of_not_serviceable hs] at hnext
    exact (Activity.instruction.inj hnext).symm

theorem reported_of_ran {act : Activity} (h : x.ran = some act) :
    x.reported = x.before.report act x.after.machine := by
  obtain ⟨hnext, hact⟩ := act_of_ran h
  rw [reported, hact, after_of_ran h, ← hnext]
  rfl

/-- A moment reports what the log is to show of it. -/
theorem map_shown_reported (hrun : ∀ n, x.action ≠ .run n) :
    x.reported.map Event.shown = x.shown := by
  cases hran : x.ran with
  | some act =>
    rw [reported_of_ran hran, shown, hran]
    cases act with
    | entry i => rfl
    | instruction f =>
      obtain rfl := eq_fetch_of_ran hran
      have hkind : x.before.machine.fetch.row.kind =
          (Opcode.decode (x.before.memory.get x.before.state.pc)).kind := rfl
      simp only [Cpu.report, hkind]
      cases (Opcode.decode (x.before.memory.get x.before.state.pc)).kind <;> rfl
  | none =>
    rw [shown, hran]
    rcases x with ⟨c, a⟩
    cases a with
    | tryStep =>
      rw [reported, act_of_tryStep rfl hran]
      cases hc : c.state.halted <;> simp only <;> rfl
    | step => cases hran
    | run n => exact absurd rfl (hrun n)
    | _ => rfl

/-- The line of an instruction shows the program counter, the opcode, the registers and the cycles
before it. -/
theorem ofLine_instructionLine (x : Moment) :
    Snapshot.ofLine x.instructionLine = some x.before.snapshot :=
  Snapshot.ofLine_registers _ _ _

/-- Only what executes adds to the totals. -/
theorem totals_of_ran_eq_none (hrun : ∀ n, x.action ≠ .run n) (h : x.ran = none) :
    x.after.cycles = x.before.cycles ∧ x.after.unimplemented = x.before.unimplemented := by
  rcases x with ⟨c, a⟩
  cases a with
  | step => cases h
  | tryStep => rcases after_of_tryStep rfl h with h | h <;> rw [h] <;> exact ⟨rfl, rfl⟩
  | run n => exact absurd rfl (hrun n)
  | _ => exact ⟨rfl, rfl⟩

theorem totals_after (hrun : ∀ n, x.action ≠ .run n) :
    x.after.cycles = x.before.cycles + UInt64.ofNat x.cost ∧
      x.after.unimplemented = x.before.unimplemented + UInt64.ofNat x.passedOver.toNat := by
  cases hran : x.ran with
  | none =>
    obtain ⟨hcycles, hcount⟩ := totals_of_ran_eq_none hrun hran
    rw [hcycles, hcount, cost, hran, passedOver, hran]
    exact ⟨(UInt64.add_zero _).symm, (UInt64.add_zero _).symm⟩
  | some act =>
    have hnext := (act_of_ran hran).1
    rw [after_of_ran hran, cost, hran]
    refine ⟨rfl, ?_⟩
    have hcount : x.before.machine.next.unimplemented = x.passedOver := by
      rw [hnext, passedOver, hran]
      cases act <;> rfl
    change x.before.unimplemented + x.before.machine.next.unimplemented.toUInt64 = _
    rw [hcount]
    cases x.passedOver <;> rfl

/-- Only a step that executes costs anything, and no more than the dearest instruction. -/
theorem cost_le (x : Moment) : x.cost ≤ Machine.cyclesBound * if x.ran.isSome then 1 else 0 := by
  rw [cost]
  cases x.ran with
  | none => exact Nat.zero_le _
  | some act => exact x.before.step_value_le

theorem ran_of_passedOver (h : x.passedOver = true) : x.ran.isSome = true := by
  cases hran : x.ran with
  | none => simp [passedOver, hran] at h
  | some act => rfl

end Moment

/-- The totals grow by what the moments add. -/
theorem Linked.totals {c d : Cpu} {xs : List Moment} (h : Linked c xs d)
    (hrun : ∀ x ∈ xs, ∀ n, x.action ≠ .run n) :
    d.cycles = c.cycles + UInt64.ofNat (xs.map Moment.cost).sum ∧
      d.unimplemented = c.unimplemented + UInt64.ofNat (xs.countP Moment.passedOver) := by
  induction xs generalizing c with
  | nil =>
    obtain rfl : c = d := h
    exact ⟨(UInt64.add_zero _).symm, (UInt64.add_zero _).symm⟩
  | cons x xs ih =>
    obtain ⟨rfl, hrest⟩ := h
    obtain ⟨hcycles, hcount⟩ := Moment.totals_after (hrun x (by simp))
    obtain ⟨hcycles', hcount'⟩ := ih hrest fun y hy => hrun y (by simp [hy])
    have hbit : (x :: xs).countP Moment.passedOver =
        x.passedOver.toNat + xs.countP Moment.passedOver := by
      rw [List.countP_cons, Nat.add_comm]
      cases x.passedOver <;> rfl
    rw [List.map_cons, List.sum_cons, hbit, UInt64.ofNat_add, UInt64.ofNat_add,
      ← UInt64.add_assoc, ← UInt64.add_assoc, ← hcycles, ← hcount]
    exact ⟨hcycles', hcount'⟩

/-- Eight cycles for each step that executes are enough. -/
theorem sum_cost_le (xs : List Moment) :
    (xs.map Moment.cost).sum ≤ Machine.cyclesBound * xs.countP fun x => x.ran.isSome := by
  induction xs with
  | nil => exact Nat.le_refl _
  | cons x xs ih =>
    rw [List.map_cons, List.sum_cons, List.countP_cons, Nat.mul_add, Nat.add_comm]
    exact Nat.add_le_add ih x.cost_le

/-- Fewer than 2^61 steps wrap neither total. -/
theorem Linked.exact_totals {d : Cpu} {xs : List Moment} (h : Linked .zero xs d)
    (hrun : ∀ x ∈ xs, ∀ n, x.action ≠ .run n)
    (hsteps : (xs.countP fun x => x.ran.isSome) < 2 ^ 61) :
    d.cycles.toNat = (xs.map Moment.cost).sum ∧
      d.unimplemented.toNat = xs.countP Moment.passedOver := by
  obtain ⟨hcycles, hcount⟩ := h.totals hrun
  have hcost := sum_cost_le xs
  have hpassed : xs.countP Moment.passedOver ≤ xs.countP fun x => x.ran.isSome :=
    List.countP_mono_left fun x _ => Moment.ran_of_passedOver
  simp only [Machine.cyclesBound] at hcost
  have hfit : (xs.map Moment.cost).sum < 2 ^ 64 := by omega
  have hfit' : xs.countP Moment.passedOver < 2 ^ 64 := by omega
  constructor
  · rw [hcycles, Cpu.zero, UInt64.zero_add, UInt64.toNat_ofNat_of_lt' hfit]
  · rw [hcount, Cpu.zero, UInt64.zero_add, UInt64.toNat_ofNat_of_lt' hfit']

namespace Cpu

theorem events_run (n : Nat) (c : Cpu) :
    (c.run n).events = (c.runMoments n).flatMap Moment.reported := by
  induction n generalizing c with
  | zero => rfl
  | succ n ih =>
    rw [runMoments, List.flatMap_cons]
    cases ht : c.tryStep.value with
    | error f =>
      rw [run_succ_of_error ht]
      exact (List.append_nil _).symm
    | ok k =>
      rw [run_succ_of_ok ht, ih]
      rfl

/-- An action reports what its moments do. -/
theorem events_act (c : Cpu) (a : Action) :
    (c.act a).events = (c.moments a).flatMap Moment.reported := by
  cases a with
  | run limit => exact events_run limit c
  | _ => exact (List.append_nil _).symm

theorem log_eq_flatMap (c : Cpu) (history : List Action) :
    c.log history = (c.life history).flatMap Moment.reported := by
  induction history generalizing c with
  | nil => rfl
  | cons a history ih => rw [log, life, List.flatMap_append, events_act, ih]

/-- The totals and the log are a transcript of every history in which fewer than 2^61 steps execute.
The cycles are the sum of what the executed steps took and answered, the other total counts the
stubs and unassigned opcodes among them, at the end as well as at every moment before it, and
nothing else changes either. The log shows moment after moment what each leaves in it. An
instruction leaves a line from which the registers, the opcode and the cycles before it can be read
back. -/
theorem totals_and_log_transcribe (history : List Action)
    (hsteps : ((zero.life history).countP fun x => x.ran.isSome) < 2 ^ 61) :
    (zero.acts history).cycles.toNat = ((zero.life history).map Moment.cost).sum ∧
    (zero.acts history).unimplemented.toNat = (zero.life history).countP Moment.passedOver ∧
    (∀ xs x ys, zero.life history = xs ++ x :: ys →
      x.before.cycles.toNat = (xs.map Moment.cost).sum ∧
      x.before.unimplemented.toNat = xs.countP Moment.passedOver) ∧
    (∀ x ∈ zero.life history,
      (x.ran.isSome → (x.before.act x.action).value = .cycles (UInt64.ofNat x.cost)) ∧
      (x.ran = none → x.after.cycles = x.before.cycles ∧
        x.after.unimplemented = x.before.unimplemented)) ∧
    (zero.log history).map Event.shown = (zero.life history).flatMap Moment.shown ∧
    (∀ x ∈ zero.life history, ∀ f, x.ran = some (.instruction f) →
      ∃ line rest, x.shown = (.trace, line) :: rest ∧
        Snapshot.ofLine line = some x.before.snapshot) := by
  have hrun : ∀ x ∈ zero.life history, ∀ n, x.action ≠ .run n := fun x hx => action_ne_run hx
  have hlinked := linked_life zero history
  obtain ⟨hcycles, hcount⟩ := hlinked.exact_totals hrun hsteps
  refine ⟨hcycles, hcount, ?_, ?_, ?_, ?_⟩
  · intro xs x ys hlife
    rw [hlife] at hlinked hrun hsteps
    obtain ⟨d, hxs, hx⟩ := hlinked.split
    rw [List.countP_append] at hsteps
    rw [hx.1]
    exact hxs.exact_totals (fun y hy => hrun y (by simp [hy])) (by omega)
  · intro x hx
    refine ⟨fun h => ?_, Moment.totals_of_ran_eq_none (hrun x hx)⟩
    obtain ⟨act, hran⟩ := Option.isSome_iff_exists.mp h
    rw [(Moment.act_of_ran hran).2, Moment.cost, hran]
    rfl
  · rw [log_eq_flatMap, List.map_flatMap]
    exact List.flatMap_congr fun x hx => Moment.map_shown_reported (hrun x hx)
  · intro x hx f hran
    exact ⟨x.instructionLine, _, by rw [Moment.shown, hran], x.ofLine_instructionLine⟩

/-- NOP, a stub and KIL: the KIL is refused, refused again by the halt, and at last passed over. -/
def passing : List Action :=
  [.load 0 [0xEA, 0xA7, 0x10, 0x02], .reset, .run 9, .tryStep, .step]

theorem totals_and_log_transcribe_passing :
    (((zero.life passing).countP fun x => x.ran.isSome) < 2 ^ 61) ∧
      (zero.acts passing).cycles.toNat = 7 ∧ (zero.acts passing).unimplemented.toNat = 2 ∧
      (zero.log passing).map Event.shown =
        [(.debug, "reset: PC=0x0000"),
          (.trace, "0000  EA NOP  A:00 X:00 Y:00 P:24 SP:FD CYC:0"),
          (.trace, "0001  A7 LAX  A:00 X:00 Y:00 P:24 SP:FD CYC:2"),
          (.debug, "0x0001: LAX (0xA7) executed as no-op"),
          (.warn, "0x0003: unassigned opcode 0x02, halting"),
          (.trace, "0003  02 KIL  A:00 X:00 Y:00 P:24 SP:FD CYC:5"),
          (.warn, "0x0003: unassigned opcode 0x02 (KIL) skipped")] := by
  have hsteps : ((zero.life passing).countP fun x => x.ran.isSome) < 2 ^ 61 := by decide +kernel
  obtain ⟨hcycles, hcount, -, -, hlog, -⟩ := totals_and_log_transcribe passing hsteps
  refine ⟨hsteps, ?_, ?_, ?_⟩
  · rw [hcycles]
    decide +kernel
  · rw [hcount]
    decide +kernel
  · rw [hlog]
    decide +kernel

end Cpu

end Mos6502
