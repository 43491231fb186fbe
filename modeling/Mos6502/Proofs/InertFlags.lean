import Mos6502.Proofs.Dependence
import Mos6502.Proofs.LiveStatus

/-!
# Inert flags

The decimal, break and unused bits take part in no computation. `active` clears them, and it commutes
with a step: whether they are cleared before or after makes no difference to the registers, the cost
or the context. They leak into memory only where a status is pushed, and there only into the bits of
the same numbers.
-/

namespace Mos6502

open Machine (stackAddress)

/-- The status with the bits that serve no computation cleared. -/
def Status.active (p : Status) : Status := { p with decimal := false, brk := false, unused := false }

def State.active (s : State) : State := { s with status := s.status.active }

def Machine.active (m : Machine) : Machine := m.onState State.active

def Cpu.active (c : Cpu) : Cpu := c.onState State.active

/-- Equal registers but for bits 3, 4 and 5 of the status. -/
structure State.Alike (s t : State) : Prop where
  status : t.status.toByte &&& 0xC7 = s.status.toByte &&& 0xC7
  rest : { t with status := s.status } = s

/-- Equal processors but for those bits. -/
structure Cpu.Alike (s t : Cpu) : Prop where
  state : s.state.Alike t.state
  memory : t.memory = s.memory
  context : t.context = s.context
  cycles : t.cycles = s.cycles
  unimplemented : t.unimplemented = s.unimplemented

namespace Status

/-- Clearing the inert bits clears bits 3, 4 and 5. -/
theorem toByte_active (p : Status) : p.active.toByte = p.toByte &&& 0xC7 :=
  forall_of_bytes (P := fun p => p.active.toByte = p.toByte &&& 0xC7) (by decide +kernel) p

theorem active_eq_iff {p q : Status} :
    p.active = q.active ↔ p.toByte &&& 0xC7 = q.toByte &&& 0xC7 := by
  rw [← toByte_inj, toByte_active, toByte_active]

/-- Equal but for inert bits, two registers push bytes that are equal but for those bits. -/
theorem pushed_active (p : Status) (brk : Bool) :
    p.active.pushed brk &&& 0xC7 = p.pushed brk &&& 0xC7 :=
  forall_of_bytes
    (P := fun p => ∀ brk : Bool, p.active.pushed brk &&& 0xC7 = p.pushed brk &&& 0xC7)
    (by decide +kernel) p brk

theorem taken_active (p : Status) (b : Branch) : b.taken p.active = b.taken p := by
  cases b <;> rfl

end Status

theorem State.alike_iff {s t : State} : s.Alike t ↔ t.active = s.active := by
  constructor
  · rintro ⟨hstatus, hrest⟩
    have hactive : t.status.active = s.status.active := Status.active_eq_iff.mpr hstatus
    rw [← hrest]
    simp only [active, hactive]
  · intro h
    constructor
    · exact Status.active_eq_iff.mp (congrArg State.status h)
    · simp only [active, State.mk.injEq] at h
      obtain ⟨ha, hx, hy, hsp, hpc, -, hpending, hhalted⟩ := h
      simp only [ha, hx, hy, hsp, hpc, hpending, hhalted]

namespace Machine

@[simp] theorem active_state (m : Machine) : m.active.state = m.state.active := rfl

theorem resolve_active (m : Machine) (mode : Mode) : m.active.resolve mode = m.resolve mode := by
  cases mode <;> rfl

/-- What comes next does not depend on the inert bits, only on the mask among the flags. -/
theorem next_active (m : Machine) : m.active.next = m.next := by
  have hfetch : m.active.fetch = m.fetch := congrArg (Fetched.mk _ _) (m.resolve_active _)
  rw [next, next, hfetch]
  rfl

theorem cycles_active (m : Machine) (act : Activity) : m.active.cycles act = m.cycles act := by
  cases act with
  | entry i => rfl
  | instruction f =>
    simp only [cycles, branchCycles, active_state, State.active, Status.taken_active]

theorem context_active (m : Machine) (act : Activity) : m.active.context act = m.context act := by
  cases act <;> rfl

/-- The vector is read from memory that the pushed status does not reach. -/
theorem state_enter_active (m : Machine) (e : Trap) (brk : Bool) :
    (m.active.enter e.vector brk).state.active = (m.enter e.vector brk).state.active := by
  rw [state_enter, state_enter]
  rfl

theorem state_execute_active (m : Machine) (op : Operation) (mode : Mode) (a : UInt16) :
    (m.active.execute op mode a).state.active = (m.execute op mode a).state.active := by
  cases op with
  | brk => exact state_enter_active m .software true
  | load r => cases r <;> rfl
  | transfer t => cases t <;> rfl
  | logic l => cases l <;> rfl
  | increment i => cases i <;> rfl
  | decrement i => cases i <;> rfl
  | shift k => simp only [execute]; split <;> rfl
  | branch b =>
    simp only [execute, active_state, State.active, Status.taken_active]
    split <;> rfl
  | flag c => cases c <;> rfl
  | _ => rfl

theorem state_step_active (m : Machine) : m.active.step.state.active = m.step.state.active := by
  rw [step, step, next_active]
  cases hs : m.state.serviceable with
  | some i =>
    rw [next_of_serviceable hs]
    exact state_enter_active m (.hardware i) false
  | none =>
    rw [next_of_not_serviceable hs]
    exact state_execute_active (m.onState (·.advance _)) _ _ _

theorem statusPush_active (m : Machine) : m.active.statusPush = m.statusPush := rfl

theorem operationWrites_active {m : Machine} {op : Operation} (mode : Mode) (a : UInt16)
    (hphp : op ≠ .php) (hbrk : op ≠ .brk) :
    m.active.operationWrites op mode a = m.operationWrites op mode a := by
  cases op with
  | php => exact absurd rfl hphp
  | brk => exact absurd rfl hbrk
  | store r => cases r <;> rfl
  | _ => rfl

/-- A step that pushes no status stores the same bytes whatever the inert bits. -/
theorem writes_active {m : Machine} (h : m.statusPush = none) : m.active.writes = m.writes := by
  rw [writes, writes, next_active]
  cases hs : m.state.serviceable with
  | some i => simp [statusPush, hs] at h
  | none =>
    rw [next_of_not_serviceable hs]
    simp only [statusPush, hs] at h
    refine operationWrites_active (m := m.onState (·.advance _)) _ _ ?_ ?_
    · intro hphp
      have hrow : m.row.operation = .php := hphp
      simp [hrow] at h
    · intro hbrk
      have hrow : m.row.operation = .brk := hbrk
      simp [hrow] at h

/-- A step that pushes the status stores it last. -/
theorem writes_of_statusPush {m : Machine} {a : UInt16} {brk : Bool}
    (h : m.statusPush = some (a, brk)) :
    ∃ ws, m.writes = ws ++ [(a, m.state.status.pushed brk)] ∧
      m.active.writes = ws ++ [(a, m.state.status.active.pushed brk)] := by
  have hsp : m.state.sp - 2 = m.state.sp - 1 - 1 := by grind
  rw [writes, writes, next_active]
  cases hs : m.state.serviceable with
  | some i =>
    simp only [statusPush, hs, Option.some.injEq, Prod.mk.injEq, hsp] at h
    obtain ⟨rfl, rfl⟩ := h
    rw [next_of_serviceable hs]
    exact ⟨pushes m.state.sp [highByte m.state.pc, lowByte m.state.pc], rfl, rfl⟩
  | none =>
    have hrow : m.fetch.row = m.row := rfl
    simp only [next_of_not_serviceable hs, hrow]
    simp only [statusPush, hs, hsp] at h
    cases hop : m.row.operation with
    | php =>
      simp only [hop, Option.some.injEq, Prod.mk.injEq] at h
      obtain ⟨rfl, rfl⟩ := h
      exact ⟨[], rfl, rfl⟩
    | brk =>
      simp only [hop, Option.some.injEq, Prod.mk.injEq] at h
      obtain ⟨rfl, rfl⟩ := h
      refine ⟨pushes m.state.sp [highByte (m.state.pc + UInt16.ofNat m.row.length),
        lowByte (m.state.pc + UInt16.ofNat m.row.length)], rfl, rfl⟩
    | _ => simp [hop] at h

theorem memory_step_active {m : Machine} (h : m.statusPush = none) :
    m.active.step.memory = m.step.memory := by
  rw [memory_step, memory_step, writes_active h]
  rfl

/-- Away from the pushed status memory does not tell whether the inert bits were cleared. -/
theorem get_step_active {m : Machine} {a : UInt16}
    (h : ∀ c brk, m.statusPush = some (c, brk) → Memory.cell c ≠ Memory.cell a) :
    m.active.step.memory.get a = m.step.memory.get a := by
  cases hpush : m.statusPush with
  | none => rw [memory_step_active hpush]
  | some push =>
    obtain ⟨c, brk⟩ := push
    obtain ⟨ws, hwrites, hactive⟩ := writes_of_statusPush hpush
    have hcell : Memory.cell c ≠ Memory.cell a := h c brk hpush
    rw [memory_step, memory_step, hwrites, hactive, Memory.storeAll_append,
      Memory.storeAll_append]
    simp only [Memory.storeAll_cons, Memory.storeAll_nil, Memory.get_set, if_neg hcell]
    rfl

/-- The pushed status itself tells it in bits 3, 4 and 5. -/
theorem get_step_active_and (m : Machine) (a : UInt16) :
    m.active.step.memory.get a &&& 0xC7 = m.step.memory.get a &&& 0xC7 := by
  by_cases h : ∃ c brk, m.statusPush = some (c, brk) ∧ Memory.cell c = Memory.cell a
  · obtain ⟨c, brk, hpush, hcell⟩ := h
    rw [Memory.get_congr _ hcell.symm, Memory.get_congr _ hcell.symm,
      get_step_of_statusPush hpush, get_step_of_statusPush (m := m.active) hpush]
    exact Status.pushed_active _ _
  · rw [get_step_active fun c brk hpush hcell => h ⟨c, brk, hpush, hcell⟩]

end Machine

namespace Cpu

theorem alike_iff {s t : Cpu} : s.Alike t ↔ t.active = s.active := by
  have hactive : t.active = s.active ↔
      t.state.active = s.state.active ∧ t.memory = s.memory ∧ t.context = s.context ∧
        t.cycles = s.cycles ∧ t.unimplemented = s.unimplemented := by
    simp only [active, onState, Machine.onState, Cpu.mk.injEq, Machine.mk.injEq, and_assoc]
  rw [hactive, ← State.alike_iff]
  constructor
  · intro h
    exact ⟨h.state, h.memory, h.context, h.cycles, h.unimplemented⟩
  · rintro ⟨hstate, hmemory, hcontext, hcycles, hcount⟩
    exact ⟨hstate, hmemory, hcontext, hcycles, hcount⟩

theorem step_value_active (c : Cpu) : c.active.step.value = c.step.value := by
  change c.machine.active.cycles c.machine.active.next = c.machine.cycles c.machine.next
  rw [Machine.next_active, Machine.cycles_active]

theorem step_context_active (c : Cpu) : c.active.step.cpu.context = c.step.cpu.context := by
  change c.machine.active.context c.machine.active.next = c.machine.context c.machine.next
  rw [Machine.next_active, Machine.context_active]

theorem step_totals_active (c : Cpu) :
    c.active.step.cpu.cycles = c.step.cpu.cycles ∧
      c.active.step.cpu.unimplemented = c.step.cpu.unimplemented := by
  have hnext : c.active.machine.next = c.machine.next := c.machine.next_active
  constructor
  · exact congrArg (c.cycles + UInt64.ofNat ·) c.step_value_active
  · exact congrArg (fun act => c.unimplemented + act.unimplemented.toUInt64) hnext

theorem step_state_active (c : Cpu) :
    c.active.step.cpu.state.active = c.step.cpu.state.active :=
  c.machine.state_step_active

/-- Clearing the inert bits before a step that pushes no status is clearing them after it. -/
theorem step_active {c : Cpu} (h : c.machine.statusPush = none) :
    c.active.step.cpu.active = c.step.cpu.active := by
  obtain ⟨hcycles, hcount⟩ := c.step_totals_active
  apply alike_iff.mp
  exact ⟨State.alike_iff.mpr c.step_state_active, Machine.memory_step_active h,
    c.step_context_active, hcycles, hcount⟩

namespace Alike

variable {s t : Cpu}

/-- What does not see whether the inert bits are cleared is alike for alike processors. -/
theorem congr {α : Type} {f : Cpu → α} (h : s.Alike t) (hf : ∀ c, f c.active = f c) :
    f t = f s := by
  rw [← hf t, alike_iff.mp h, hf s]

theorem statusPush_eq (h : s.Alike t) : t.machine.statusPush = s.machine.statusPush :=
  h.congr (f := (·.machine.statusPush)) fun c => c.machine.statusPush_active

theorem step (h : s.Alike t) (hpush : s.machine.statusPush = none) :
    s.step.cpu.Alike t.step.cpu := by
  have hpush' : t.machine.statusPush = none := h.statusPush_eq.trans hpush
  rw [alike_iff, ← step_active hpush, ← step_active hpush', alike_iff.mp h]

theorem after {n : Nat} (h : s.Alike t)
    (hpush : ∀ k < n, (s.after k).machine.statusPush = none) :
    (s.after n).Alike (t.after n) := by
  induction n with
  | zero => exact h
  | succ n ih =>
    rw [after_succ_last, after_succ_last]
    exact (ih fun k hk => hpush k (Nat.lt_succ_of_lt hk)).step (hpush n (Nat.lt_succ_self n))

theorem step_value (h : s.Alike t) : t.step.value = s.step.value :=
  h.congr (f := (·.step.value)) step_value_active

/-- A byte that a step leaves differs at most where both pushed their status. -/
theorem get_step (h : s.Alike t) (a : UInt16) :
    t.step.cpu.memory.get a = s.step.cpu.memory.get a ∨
      ∃ c brk, s.machine.statusPush = some (c, brk) ∧ Memory.cell c = Memory.cell a ∧
        t.step.cpu.memory.get a &&& 0xC7 = s.step.cpu.memory.get a &&& 0xC7 := by
  by_cases hcell : ∃ c brk, s.machine.statusPush = some (c, brk) ∧ Memory.cell c = Memory.cell a
  · obtain ⟨c, brk, hpush, hc⟩ := hcell
    refine .inr ⟨c, brk, hpush, hc, ?_⟩
    exact h.congr (f := (·.step.cpu.memory.get a &&& 0xC7)) (·.machine.get_step_active_and a)
  · left
    have hs : ∀ c brk, s.machine.statusPush = some (c, brk) → Memory.cell c ≠ Memory.cell a :=
      fun c brk hpush hc => hcell ⟨c, brk, hpush, hc⟩
    have ht := hs
    rw [← h.statusPush_eq] at ht
    have hmemory : t.active.step.cpu.memory.get a = s.active.step.cpu.memory.get a := by
      rw [alike_iff.mp h]
    exact (Machine.get_step_active ht).symm.trans (hmemory.trans (Machine.get_step_active hs))

end Alike

/-- The decimal, break and unused bits of the status are inert. Let `s` and `t` differ in those bits
at most. A step takes the same cycles on both and leaves the same registers, context and memory, up
to the same bits of the status and of the byte in the cell to which it pushed the status; steps that
push none leave no other difference, however many. -/
theorem inert_flags_unobserved (s t : Cpu) (h : s.Alike t) :
    t.step.value = s.step.value ∧ s.step.cpu.state.Alike t.step.cpu.state ∧
    t.step.cpu.context = s.step.cpu.context ∧
    (∀ a, t.step.cpu.memory.get a = s.step.cpu.memory.get a ∨
      ∃ c brk, s.machine.statusPush = some (c, brk) ∧ Memory.cell c = Memory.cell a ∧
        t.step.cpu.memory.get a &&& 0xC7 = s.step.cpu.memory.get a &&& 0xC7) ∧
    ∀ n, (∀ k < n, (s.after k).machine.statusPush = none) →
      (s.after n).Alike (t.after n) ∧ (steps n t).value = (steps n s).value := by
  refine ⟨h.step_value, ?_, ?_, h.get_step, ?_⟩
  · exact State.alike_iff.mpr (h.congr (f := (·.step.cpu.state.active)) step_state_active)
  · exact h.congr (f := (·.step.cpu.context)) step_context_active
  · intro n hpush
    refine ⟨h.after hpush, steps_value_congr fun k hk => ?_⟩
    exact (h.after fun i hi => hpush i (Nat.lt_trans hi hk)).step_value

/-- ADC #$05 and PHP. -/
def adding : Cpu := zero.onMemory (·.load 0 [0x69, 0x05, 0x08])

/-- The same with all three bits set. -/
def addingDecimal : Cpu := adding.onState ({ · with status := .ofByte 0x38 })

theorem inert_flags_unobserved_adding :
    adding.Alike addingDecimal ∧ (adding.after 1).Alike (addingDecimal.after 1) ∧
      (adding.after 2).memory.get 0x0100 = 0x10 ∧
      (addingDecimal.after 2).memory.get 0x0100 = 0x38 ∧
      ∃ c brk, (adding.after 1).machine.statusPush = some (c, brk) ∧
        Memory.cell c = Memory.cell 0x0100 := by
  have halike : adding.Alike addingDecimal := ⟨⟨by decide +kernel, rfl⟩, rfl, rfl, rfl, rfl⟩
  have hnone : ∀ k < 1, (adding.after k).machine.statusPush = none := by decide +kernel
  have hplain : (adding.after 2).memory.get 0x0100 = 0x10 := by decide +kernel
  have hdecimal : (addingDecimal.after 2).memory.get 0x0100 = 0x38 := by decide +kernel
  obtain ⟨-, -, -, -, hrun⟩ := inert_flags_unobserved adding addingDecimal halike
  have hone := (hrun 1 hnone).1
  obtain ⟨-, -, -, hbytes, -⟩ := inert_flags_unobserved _ _ hone
  refine ⟨halike, hone, hplain, hdecimal, ?_⟩
  rcases hbytes 0x0100 with heq | ⟨c, brk, hpush, hcell, -⟩
  · exact absurd (hdecimal.symm.trans (heq.trans hplain)) (by decide)
  · exact ⟨c, brk, hpush, hcell⟩

end Cpu

end Mos6502
