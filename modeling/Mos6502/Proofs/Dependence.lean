import Mos6502.Proofs.Footprint
import Mos6502.Proofs.Traps

/-!
# What a step depends on

`Machine.reads` lists the addresses that the next step reads. Two machines with the same registers
whose memories agree there do the same thing: the step takes the same cycles, leaves the same
registers and makes the same stores. Along a run the cells written so far agree too, so they need
not be among those on which the memories agreed at first.
-/

namespace Mos6502

open Machine (stackAddress)

/-- The addresses that an operation reads, given its effective address and the stack pointer. A
store, a jump and a skipped instruction do not read their operand. -/
def Operation.reads (mode : Mode) (a : UInt16) (sp : UInt8) : Operation → List UInt16
  | load _ | adc | sbc | logic _ | bit | compare _ | incrementMemory | decrementMemory => [a]
  | shift _ => if mode = .accumulator then [] else [a]
  | pla | plp => [stackAddress (sp + 1)]
  | ret => [stackAddress (sp + 1), stackAddress (sp + 2)]
  | rti => [stackAddress (sp + 1), stackAddress (sp + 2), stackAddress (sp + 3)]
  | brk => [irqVector, irqVector + 1]
  | _ => []

namespace Memory

variable {m n : Memory} {a : UInt16}

theorem readWord_congr (h : ∀ b ∈ [a, a + 1], n.get b = m.get b) : n.readWord a = m.readWord a := by
  rw [readWord, readWord, h a (by simp), h (a + 1) (by simp)]

theorem readWordInPage_congr (h : ∀ b ∈ [a, nextInPage a], n.get b = m.get b) :
    n.readWordInPage a = m.readWordInPage a := by
  rw [readWordInPage, readWordInPage, h a (by simp), h (nextInPage a) (by simp)]

end Memory

namespace Machine

/-- The addresses of the operand bytes. -/
def operandReads (m : Machine) (mode : Mode) : List UInt16 :=
  (List.range mode.operandLength).map fun k => m.state.pc + 1 + UInt16.ofNat k

/-- The addresses of the pointer that an indirect mode follows. -/
def pointerReads (m : Machine) : Mode → List UInt16
  | .indirect => [m.operandWord, Memory.nextInPage m.operandWord]
  | .indexedIndirect =>
    let p := (m.operandByte + m.state.x).toUInt16
    [p, Memory.nextInPage p]
  | .indirectIndexed =>
    let p := m.operandByte.toUInt16
    [p, Memory.nextInPage p]
  | _ => []

/-- The addresses that the next step reads. -/
def reads (m : Machine) : List UInt16 :=
  match m.state.serviceable with
  | some i => [i.vector, i.vector + 1]
  | none =>
    m.state.pc :: m.operandReads m.row.mode ++ m.pointerReads m.row.mode ++
      m.row.operation.reads m.row.mode m.effective m.state.sp

/-- The same registers over another memory. -/
def withMemory (m : Machine) (n : Memory) : Machine := { m with memory := n }

@[simp] theorem withMemory_state (m : Machine) (n : Memory) :
    (m.withMemory n).state = m.state := rfl

@[simp] theorem withMemory_memory (m : Machine) (n : Memory) : (m.withMemory n).memory = n := rfl

variable {m : Machine} {n : Memory}

theorem operandByte_withMemory {mode : Mode} (hlength : 0 < mode.operandLength)
    (h : ∀ a ∈ m.operandReads mode, n.get a = m.memory.get a) :
    (m.withMemory n).operandByte = m.operandByte :=
  h _ (List.mem_map.mpr ⟨0, List.mem_range.mpr hlength, UInt16.add_zero _⟩)

theorem operandWord_withMemory {mode : Mode} (hlength : 1 < mode.operandLength)
    (h : ∀ a ∈ m.operandReads mode, n.get a = m.memory.get a) :
    (m.withMemory n).operandWord = m.operandWord := by
  have hlow : n.get (m.state.pc + 1) = m.memory.get (m.state.pc + 1) :=
    operandByte_withMemory (Nat.lt_of_succ_lt hlength) h
  have hhigh : n.get (m.state.pc + 1 + 1) = m.memory.get (m.state.pc + 1 + 1) :=
    h _ (List.mem_map.mpr ⟨1, List.mem_range.mpr hlength, rfl⟩)
  have hword : n.readWord (m.state.pc + 1) = m.memory.readWord (m.state.pc + 1) :=
    Memory.readWord_congr (by simp [hlow, hhigh])
  exact hword

/-- The effective address comes from the operand and the pointer. -/
theorem resolve_withMemory {mode : Mode}
    (hoperand : ∀ a ∈ m.operandReads mode, n.get a = m.memory.get a)
    (hpointer : ∀ a ∈ m.pointerReads mode, n.get a = m.memory.get a) :
    (m.withMemory n).resolve mode = m.resolve mode := by
  cases mode with
  | implied | accumulator | immediate => rfl
  | zeroPage | zeroPageX | zeroPageY | relative =>
    have hbyte := operandByte_withMemory (by decide) hoperand
    simp only [resolve, hbyte, withMemory_state]
  | absolute | absoluteX | absoluteY =>
    have hword := operandWord_withMemory (by decide) hoperand
    simp only [resolve, hword, withMemory_state]
  | indirect =>
    have hword := operandWord_withMemory (by decide) hoperand
    have htarget := Memory.readWordInPage_congr hpointer
    simp only [resolve, hword, withMemory_memory, htarget]
  | indexedIndirect | indirectIndexed =>
    have hbyte := operandByte_withMemory (by decide) hoperand
    have htarget := Memory.readWordInPage_congr hpointer
    simp only [resolve, hbyte, pointer, withMemory_state, withMemory_memory, htarget]

/-- The step of the machine over the other memory begins as its own does. -/
theorem next_withMemory (h : ∀ a ∈ m.reads, n.get a = m.memory.get a) :
    (m.withMemory n).next = m.next := by
  cases hs : m.state.serviceable with
  | some i => rw [next_of_serviceable hs, next_of_serviceable (m := m.withMemory n) hs]
  | none =>
    simp only [reads, hs, List.cons_append, List.forall_mem_cons, List.forall_mem_append] at h
    obtain ⟨hopcode, ⟨hoperand, hpointer⟩, -⟩ := h
    have hresolve : (m.withMemory n).resolve m.row.mode = m.resolve m.row.mode :=
      resolve_withMemory hoperand hpointer
    rw [next_of_not_serviceable hs, next_of_not_serviceable (m := m.withMemory n) hs]
    have hfetch : (m.withMemory n).fetch = m.fetch := by
      simp only [fetch, withMemory] at hresolve ⊢
      rw [hopcode]
      exact congrArg _ hresolve
    rw [hfetch]

/-- The registers after an entry: the vector is read as it was before the pushes. -/
theorem state_enter (m : Machine) (e : Trap) (brk : Bool) :
    (m.enter e.vector brk).state =
      { m.state with
        sp := m.state.sp - 1 - 1 - 1
        status := { m.state.status with irqDisable := true }
        pc := m.memory.readWord e.vector
        pending := none } := by
  rw [← pc_enter m e brk]
  rfl

theorem state_enter_withMemory (e : Trap) (brk : Bool)
    (h : ∀ a ∈ [e.vector, e.vector + 1], n.get a = m.memory.get a) :
    ((m.withMemory n).enter e.vector brk).state = (m.enter e.vector brk).state := by
  have hvector := Memory.readWord_congr h
  rw [state_enter, state_enter]
  simp only [withMemory, hvector]

/-- The registers after an operation come from those before it and from what it reads. -/
theorem state_execute_withMemory {op : Operation} {mode : Mode} {a : UInt16}
    (h : ∀ b ∈ op.reads mode a m.state.sp, n.get b = m.memory.get b) :
    ((m.withMemory n).execute op mode a).state = (m.execute op mode a).state := by
  have htwo : m.state.sp + 1 + 1 = m.state.sp + 2 := UInt8.add_assoc _ 1 1
  have hthree : m.state.sp + 2 + 1 = m.state.sp + 3 := UInt8.add_assoc _ 2 1
  cases op with
  | brk => exact state_enter_withMemory .software true h
  | load _ | compare _ | logic _ | bit | adc | sbc | incrementMemory | decrementMemory =>
    have hv : n.get a = m.memory.get a := h a (List.mem_singleton_self a)
    simp only [execute, withMemory, onState, incrementAt, decrementAt, hv]
  | shift k =>
    by_cases hmode : mode = .accumulator
    · simp only [execute, if_pos hmode]
      rfl
    · have hv : n.get a = m.memory.get a := h a (by simp [Operation.reads, hmode])
      simp only [execute, if_neg hmode, shiftAt, withMemory, hv]
  | pla | plp =>
    simp only [Operation.reads, List.forall_mem_singleton] at h
    simp only [execute, pla, plp, pop, withMemory, h]
  | ret =>
    simp only [Operation.reads, List.forall_mem_cons, ← htwo] at h
    simp only [execute, ret, popWord, pop, jump, withMemory, h]
  | rti =>
    simp only [Operation.reads, List.forall_mem_cons, ← hthree, ← htwo] at h
    simp only [execute, rti, plp, popWord, pop, jump, withMemory, h]
  | branch b =>
    have htaken : b.taken (m.withMemory n).state.status = b.taken m.state.status := rfl
    simp only [execute, htaken]
    split <;> rfl
  | _ => rfl

/-- The stores of an operation come from the registers and from what it reads. -/
theorem operationWrites_withMemory {op : Operation} {mode : Mode} {a : UInt16}
    (h : ∀ b ∈ op.reads mode a m.state.sp, n.get b = m.memory.get b) :
    (m.withMemory n).operationWrites op mode a = m.operationWrites op mode a := by
  cases op with
  | incrementMemory | decrementMemory =>
    have hv : n.get a = m.memory.get a := h a (List.mem_singleton_self a)
    simp only [operationWrites, withMemory, hv]
  | shift k =>
    by_cases hmode : mode = .accumulator
    · simp only [operationWrites, if_pos hmode]
    · have hv : n.get a = m.memory.get a := h a (by simp [Operation.reads, hmode])
      simp only [operationWrites, if_neg hmode, withMemory, hv]
  | _ => rfl

/-- What the operation of the next step reads is among what the step reads. -/
theorem forall_operation_reads (hs : m.state.serviceable = none)
    (h : ∀ a ∈ m.reads, n.get a = m.memory.get a) :
    ∀ a ∈ m.row.operation.reads m.row.mode (m.resolve m.row.mode).address m.state.sp,
      n.get a = m.memory.get a := by
  intro a ha
  apply h
  rw [address_resolve] at ha
  rw [reads, hs]
  exact List.mem_append_right _ ha

theorem state_step_withMemory (h : ∀ a ∈ m.reads, n.get a = m.memory.get a) :
    (m.withMemory n).step.state = m.step.state := by
  rw [step, step, next_withMemory h]
  cases hs : m.state.serviceable with
  | some i =>
    rw [next_of_serviceable hs]
    simp only [reads, hs] at h
    exact state_enter_withMemory (.hardware i) false h
  | none =>
    rw [next_of_not_serviceable hs]
    exact state_execute_withMemory (m := m.onState (·.advance _)) (forall_operation_reads hs h)

theorem writes_withMemory (h : ∀ a ∈ m.reads, n.get a = m.memory.get a) :
    (m.withMemory n).writes = m.writes := by
  rw [writes, writes, next_withMemory h]
  cases hs : m.state.serviceable with
  | some i =>
    rw [next_of_serviceable hs]
    rfl
  | none =>
    rw [next_of_not_serviceable hs]
    exact operationWrites_withMemory (m := m.onState (·.advance _)) (forall_operation_reads hs h)

end Machine

namespace Cpu

/-- The same registers, and memories that agree on the cells of which `D` holds. -/
structure Agree (D : UInt16 → Prop) (s t : Cpu) : Prop where
  state : t.state = s.state
  memory : ∀ a, D (Memory.cell a) → t.memory.get a = s.memory.get a

/-- The cells at which the first `n` steps store. -/
def touched (c : Cpu) (n : Nat) : List UInt16 :=
  (List.range n).flatMap fun k => (c.after k).machine.footprint

theorem mem_touched_succ {c : Cpu} {n : Nat} {a : UInt16} :
    a ∈ c.touched (n + 1) ↔ a ∈ c.touched n ∨ a ∈ (c.after n).machine.footprint := by
  simp [touched, List.range_succ]

namespace Agree

variable {D : UInt16 → Prop} {s t : Cpu}

theorem machine_eq (h : Agree D s t) : t.machine = s.machine.withMemory t.memory := by
  have hstate : t.machine.state = s.machine.state := h.state
  rw [Machine.withMemory, ← hstate]

/-- The memories agree on what the next step reads. -/
theorem get_reads (h : Agree D s t) (hreads : ∀ a ∈ s.machine.reads, D (Memory.cell a)) :
    ∀ a ∈ s.machine.reads, t.memory.get a = s.memory.get a :=
  fun a ha => h.memory a (hreads a ha)

theorem next_eq (h : Agree D s t) (hreads : ∀ a ∈ s.machine.reads, D (Memory.cell a)) :
    t.machine.next = s.machine.next := by
  rw [h.machine_eq]
  exact Machine.next_withMemory (h.get_reads hreads)

theorem writes_eq (h : Agree D s t) (hreads : ∀ a ∈ s.machine.reads, D (Memory.cell a)) :
    t.machine.writes = s.machine.writes := by
  rw [h.machine_eq]
  exact Machine.writes_withMemory (h.get_reads hreads)

theorem step_value (h : Agree D s t) (hreads : ∀ a ∈ s.machine.reads, D (Memory.cell a)) :
    t.step.value = s.step.value := by
  change t.machine.cycles t.machine.next = s.machine.cycles s.machine.next
  rw [h.next_eq hreads, h.machine_eq]
  rfl

theorem step_context (h : Agree D s t) (hreads : ∀ a ∈ s.machine.reads, D (Memory.cell a)) :
    t.step.cpu.context = s.step.cpu.context := by
  change t.machine.context t.machine.next = s.machine.context s.machine.next
  rw [h.next_eq hreads, h.machine_eq]
  rfl

/-- One step keeps the agreement and extends it to the cells at which it stores. -/
theorem step (h : Agree D s t) (hreads : ∀ a ∈ s.machine.reads, D (Memory.cell a)) :
    Agree (fun a => D a ∨ a ∈ s.machine.footprint) s.step.cpu t.step.cpu where
  state := by
    rw [Cpu.state, Cpu.state, machine_step, machine_step, h.machine_eq]
    exact Machine.state_step_withMemory (h.get_reads hreads)
  memory a ha := by
    rw [Cpu.memory, Cpu.memory, machine_step, machine_step, Machine.memory_step,
      Machine.memory_step, h.writes_eq hreads]
    apply Memory.get_storeAll_congr
    rw [Machine.cells_writes]
    exact ha.symm.imp_right (h.memory a)

/-- Any number of steps keep the agreement, as long as each reads cells that agree by then. -/
theorem after {n : Nat} (h : Agree D s t)
    (hreads : ∀ k < n, ∀ a ∈ (s.after k).machine.reads,
      D (Memory.cell a) ∨ Memory.cell a ∈ s.touched k) :
    Agree (fun a => D a ∨ a ∈ s.touched n) (s.after n) (t.after n) := by
  induction n with
  | zero =>
    refine ⟨h.state, fun a ha => h.memory a (ha.resolve_right ?_)⟩
    simp [touched]
  | succ n ih =>
    have hbefore := ih fun k hk => hreads k (Nat.lt_succ_of_lt hk)
    have hstep := hbefore.step (hreads n (Nat.lt_succ_self n))
    rw [after_succ_last, after_succ_last]
    refine ⟨hstep.state, fun a ha => hstep.memory a ?_⟩
    rwa [mem_touched_succ, ← or_assoc] at ha

end Agree

/-- A step depends on what it reads and on nothing else. Let `s` and `t` have the same registers and
memories that agree on `D`. If `D` covers what the next step of `s` reads, the step takes the same
cycles on both, leaves the same registers and the same context, and stores the same bytes at the
same cells. Over `n` steps it is enough that `D` covers what is read of cells not written before. -/
theorem step_depends_on_reads (s t : Cpu) (D : UInt16 → Prop) (h : Agree D s t) :
    ((∀ a ∈ s.machine.reads, D (Memory.cell a)) →
      t.step.value = s.step.value ∧ t.step.cpu.state = s.step.cpu.state ∧
      t.step.cpu.context = s.step.cpu.context ∧ t.machine.footprint = s.machine.footprint ∧
      (∀ a, Memory.cell a ∈ s.machine.footprint →
        t.step.cpu.memory.get a = s.step.cpu.memory.get a) ∧
      ∀ a, Memory.cell a ∉ s.machine.footprint →
        s.step.cpu.memory.get a = s.memory.get a ∧ t.step.cpu.memory.get a = t.memory.get a) ∧
    ∀ n, (∀ k < n, ∀ a ∈ (s.after k).machine.reads,
        D (Memory.cell a) ∨ Memory.cell a ∈ s.touched k) →
      (∀ k < n, (t.after k).step.value = (s.after k).step.value) ∧
      (steps n t).value = (steps n s).value ∧ (t.after n).state = (s.after n).state ∧
      ∀ a, D (Memory.cell a) ∨ Memory.cell a ∈ s.touched n →
        (t.after n).memory.get a = (s.after n).memory.get a := by
  constructor
  · intro hreads
    have hstep := h.step hreads
    have hfootprint : t.machine.footprint = s.machine.footprint := by
      rw [← Machine.cells_writes, ← Machine.cells_writes, h.writes_eq hreads]
    refine ⟨h.step_value hreads, hstep.state, h.step_context hreads, hfootprint, ?_, ?_⟩
    · intro a ha
      exact hstep.memory a (.inr ha)
    · intro a ha
      refine ⟨Machine.get_step_of_notMem ha, Machine.get_step_of_notMem ?_⟩
      rwa [hfootprint]
  · intro n hreads
    have hafter := h.after hreads
    have hvalue : ∀ k < n, (t.after k).step.value = (s.after k).step.value := by
      intro k hk
      have hbefore := h.after fun i hi => hreads i (Nat.lt_trans hi hk)
      exact hbefore.step_value (hreads k hk)
    exact ⟨hvalue, steps_value_congr hvalue, hafter.state, hafter.memory⟩

/-- LDA $10, STA $20 and LDA $20. -/
def copying : Cpu :=
  zero.onMemory fun m => (m.load 0 [0xA5, 0x10, 0x85, 0x20, 0xA5, 0x20]).set 0x10 7

/-- Another byte at $20, which is written before it is read. -/
def copyingOver : Cpu := copying.onMemory (·.set 0x20 0xFF)

/-- The program and its source. -/
def copyingCells : List UInt16 := [0, 1, 2, 3, 4, 5, 0x10]

theorem agree_copying : Agree (· ∈ copyingCells) copying copyingOver where
  state := onMemory_state copying _
  memory a ha := by
    have hne : Memory.cell 0x20 ≠ Memory.cell a := by
      intro heq
      rw [← heq] at ha
      exact absurd ha (by decide)
    exact (Memory.get_set copying.memory 0x20 a 0xFF).trans (if_neg hne)

theorem reads_copying :
    copying.machine.reads = [0, 1, 0x10] ∧ (copying.after 1).machine.reads = [2, 3] ∧
      (copying.after 1).machine.footprint = [0x20] ∧
      (copying.after 2).machine.reads = [4, 5, 0x20] := by
  decide +kernel

theorem step_depends_on_reads_copying :
    Agree (· ∈ copyingCells) copying copyingOver ∧
      copyingOver.step.value = copying.step.value ∧
      (copyingOver.after 3).state = (copying.after 3).state ∧
      (copyingOver.after 3).memory.get 0x0820 = 7 := by
  obtain ⟨h0, h1, hstore, h2⟩ := reads_copying
  have hwritten : Memory.cell 0x20 ∈ copying.touched 2 :=
    mem_touched_succ.mpr (.inr (by rw [hstore]; decide))
  have hone : ∀ a ∈ copying.machine.reads, Memory.cell a ∈ copyingCells := by
    simp only [h0, List.forall_mem_cons, List.not_mem_nil, false_implies, implies_true, and_true]
    decide
  have hthree : ∀ k < 3, ∀ a ∈ (copying.after k).machine.reads,
      Memory.cell a ∈ copyingCells ∨ Memory.cell a ∈ copying.touched k := by
    intro k hk
    obtain rfl | rfl | rfl : k = 0 ∨ k = 1 ∨ k = 2 := by omega
    · exact fun a ha => .inl (hone a ha)
    · simp only [h1, List.forall_mem_cons, List.not_mem_nil, false_implies, implies_true, and_true]
      exact ⟨.inl (by decide), .inl (by decide)⟩
    · simp only [h2, List.forall_mem_cons, List.not_mem_nil, false_implies, implies_true, and_true]
      exact ⟨.inl (by decide), .inl (by decide), .inr hwritten⟩
  have hvalue : (copying.after 3).memory.get 0x0820 = 7 := by decide +kernel
  obtain ⟨hstep, hrun⟩ := step_depends_on_reads copying copyingOver _ agree_copying
  obtain ⟨-, -, hstate, hmemory⟩ := hrun 3 hthree
  have hagree := hmemory 0x0820 (.inr (mem_touched_succ.mpr (.inl hwritten)))
  exact ⟨agree_copying, (hstep hone).1, hstate, hagree.trans hvalue⟩

end Cpu

end Mos6502
