import Mos6502.Proofs.Addresses
import Mos6502.Proofs.History

/-!
# What a step writes

A step stores at no more than three cells, and `Machine.footprint` names them: the cell of the
effective address for an instruction that stores at its operand, and cells of the stack page for one
that pushes. `Machine.writes` adds the values, and the memory after a step is the memory before it
with these stores made in order. Hence no byte outside the stack page ever changes but by an
instruction that names its cell.
-/

namespace Mos6502

open Machine (stackAddress)

namespace Memory

/-- Store at one address after another. -/
def storeAll (m : Memory) : List (UInt16 × UInt8) → Memory
  | [] => m
  | w :: ws => (m.set w.1 w.2).storeAll ws

/-- The cells of a list of stores. -/
def cells (ws : List (UInt16 × UInt8)) : List UInt16 := ws.map fun w => cell w.1

@[simp] theorem storeAll_nil (m : Memory) : m.storeAll [] = m := rfl

@[simp] theorem storeAll_cons (m : Memory) (w : UInt16 × UInt8) (ws : List (UInt16 × UInt8)) :
    m.storeAll (w :: ws) = (m.set w.1 w.2).storeAll ws := rfl

theorem storeAll_append (m : Memory) (ws vs : List (UInt16 × UInt8)) :
    m.storeAll (ws ++ vs) = (m.storeAll ws).storeAll vs := by
  induction ws generalizing m with
  | nil => rfl
  | cons w ws ih => exact ih (m.set w.1 w.2)

@[simp] theorem cells_nil : cells [] = [] := rfl

@[simp] theorem cells_cons (w : UInt16 × UInt8) (ws : List (UInt16 × UInt8)) :
    cells (w :: ws) = cell w.1 :: cells ws := rfl

/-- Stores leave the cells alone that none of them names. -/
theorem get_storeAll_of_notMem {m : Memory} {ws : List (UInt16 × UInt8)} {a : UInt16}
    (h : cell a ∉ cells ws) : (m.storeAll ws).get a = m.get a := by
  induction ws generalizing m with
  | nil => rfl
  | cons w ws ih =>
    simp only [cells_cons, List.mem_cons, not_or] at h
    rw [storeAll_cons, ih h.2, get_set, if_neg (Ne.symm h.1)]

/-- The same stores make two memories agree where they store, and keep what agreed elsewhere. -/
theorem get_storeAll_congr {m n : Memory} {ws : List (UInt16 × UInt8)} {a : UInt16}
    (h : cell a ∈ cells ws ∨ m.get a = n.get a) : (m.storeAll ws).get a = (n.storeAll ws).get a := by
  induction ws generalizing m n with
  | nil => simpa using h
  | cons w ws ih =>
    apply ih
    rw [cells_cons, List.mem_cons] at h
    by_cases hw : cell w.1 = cell a
    · simp only [get_set, if_pos hw, or_true]
    · simp only [get_set, if_neg hw]
      rcases h with (heq | hlater) | hagree
      · exact absurd heq.symm hw
      · exact .inl hlater
      · exact .inr hagree

/-- The address lies in the stack page or in a mirror of it. -/
def OnStackPage (a : UInt16) : Prop := 0x0100 ≤ cell a ∧ cell a ≤ 0x01FF

instance (a : UInt16) : Decidable (OnStackPage a) := inferInstanceAs (Decidable (_ ∧ _))

theorem onStackPage_of_cell {a : UInt16} {sp : UInt8} (h : cell a = stackAddress sp) :
    OnStackPage a := by
  have hsp := sp.toNat_lt
  simp only [OnStackPage, h, UInt16.le_iff_toNat_le, stackAddress, toNat_word, UInt8.reduceToNat,
    UInt16.reduceToNat]
  omega

end Memory

/-- The operation stores at its operand when it executes in the mode. -/
def Operation.storesIn (mode : Mode) : Operation → Bool
  | store _ | incrementMemory | decrementMemory => true
  | shift _ => mode != .accumulator
  | _ => false

namespace Machine

/-- The effective address of the instruction under the program counter. -/
def effective (m : Machine) : UInt16 := UInt16.ofNat (m.operandAddress m.row.mode)

/-- The cells at which the next step stores. -/
def footprint (m : Machine) : List UInt16 :=
  let s := m.state.sp
  match m.state.serviceable with
  | some _ => [stackAddress s, stackAddress (s - 1), stackAddress (s - 2)]
  | none =>
    match m.row.operation with
    | .store _ | .incrementMemory | .decrementMemory => [Memory.cell m.effective]
    | .shift _ => if m.row.mode = .accumulator then [] else [Memory.cell m.effective]
    | .pha | .php => [stackAddress s]
    | .call => [stackAddress s, stackAddress (s - 1)]
    | .brk => [stackAddress s, stackAddress (s - 1), stackAddress (s - 2)]
    | _ => []

/-- The next step executes an instruction that stores at its operand, and the operand lies in the
cell of `a`. -/
def StoresAt (m : Machine) (a : UInt16) : Prop :=
  ∃ op, m.upcoming = some op ∧ op.storesIn m.row.mode ∧ Memory.cell m.effective = Memory.cell a

/-- The stores of pushing the bytes in order. -/
def pushes (sp : UInt8) : List UInt8 → List (UInt16 × UInt8)
  | [] => []
  | b :: bs => (stackAddress sp, b) :: pushes (sp - 1) bs

/-- The stores of an entry. -/
def entryWrites (m : Machine) (brk : Bool) : List (UInt16 × UInt8) :=
  pushes m.state.sp
    [highByte m.state.pc, lowByte m.state.pc, m.state.status.pushed brk]

/-- The stores of an operation, with the program counter already past the instruction. -/
def operationWrites (m : Machine) (op : Operation) (mode : Mode) (a : UInt16) :
    List (UInt16 × UInt8) :=
  match op with
  | .store r => [(a, m.state.get r)]
  | .incrementMemory => [(a, m.memory.get a + 1)]
  | .decrementMemory => [(a, m.memory.get a - 1)]
  | .shift k =>
    if mode = .accumulator then [] else [(a, k.result m.state.status.carry (m.memory.get a))]
  | .pha => pushes m.state.sp [m.state.a]
  | .php => pushes m.state.sp [m.state.status.pushed true]
  | .call => pushes m.state.sp [highByte (m.state.pc - 1), lowByte (m.state.pc - 1)]
  | .brk => m.entryWrites true
  | _ => []

/-- The stores of the next step. -/
def writes (m : Machine) : List (UInt16 × UInt8) :=
  match m.next with
  | .entry _ => m.entryWrites false
  | .instruction f =>
    (m.onState (·.advance (UInt16.ofNat f.row.length))).operationWrites f.row.operation f.row.mode
      f.operand.address

theorem memory_enter (m : Machine) (vector : UInt16) (brk : Bool) :
    (m.enter vector brk).memory = m.memory.storeAll (m.entryWrites brk) := rfl

theorem memory_execute (m : Machine) (op : Operation) (mode : Mode) (a : UInt16) :
    (m.execute op mode a).memory = m.memory.storeAll (m.operationWrites op mode a) := by
  cases op with
  | load r => cases r <;> rfl
  | transfer t => cases t <;> rfl
  | logic l => cases l <;> rfl
  | increment i => cases i <;> rfl
  | decrement i => cases i <;> rfl
  | shift k =>
    simp only [execute, operationWrites]
    split <;> rfl
  | branch b =>
    simp only [execute, operationWrites]
    split <;> rfl
  | _ => rfl

/-- The memory after a step is the memory before it with the stores made. -/
theorem memory_step (m : Machine) : m.step.memory = m.memory.storeAll m.writes := by
  rw [step, writes]
  cases m.next with
  | entry i => exact memory_enter _ _ _
  | instruction f => exact memory_execute _ _ _ _

@[simp] theorem cells_pushes_nil (sp : UInt8) : Memory.cells (pushes sp []) = [] := rfl

@[simp] theorem cells_pushes_cons (sp b : UInt8) (bs : List UInt8) :
    Memory.cells (pushes sp (b :: bs)) = stackAddress sp :: Memory.cells (pushes (sp - 1) bs) := by
  rw [pushes, Memory.cells_cons, cell_stackAddress]

theorem cells_entryWrites (m : Machine) (brk : Bool) :
    Memory.cells (m.entryWrites brk) =
      [stackAddress m.state.sp, stackAddress (m.state.sp - 1), stackAddress (m.state.sp - 2)] := by
  have hsp : m.state.sp - 1 - 1 = m.state.sp - 2 := by grind
  simp only [entryWrites, cells_pushes_cons, cells_pushes_nil, hsp]

/-- The stores of a step lie in its footprint, and at every cell of it there is one. -/
theorem cells_writes (m : Machine) : Memory.cells m.writes = m.footprint := by
  cases hs : m.state.serviceable with
  | some i =>
    simp only [writes, next_of_serviceable hs, footprint, hs]
    exact cells_entryWrites _ _
  | none =>
    have hrow : m.fetch.row = m.row := rfl
    have haddress : m.fetch.operand.address = m.effective := m.address_resolve m.row.mode
    simp only [writes, next_of_not_serviceable hs, footprint, hs, hrow, haddress]
    cases m.row.operation with
    | shift k =>
      simp only [operationWrites]
      split <;> rfl
    | pha => simp only [operationWrites, cells_pushes_cons, cells_pushes_nil]; rfl
    | php => simp only [operationWrites, cells_pushes_cons, cells_pushes_nil]; rfl
    | call => simp only [operationWrites, cells_pushes_cons, cells_pushes_nil]; rfl
    | brk => exact cells_entryWrites _ _
    | _ => rfl

/-- A step changes no byte outside its footprint. -/
theorem get_step_of_notMem {m : Machine} {a : UInt16} (h : Memory.cell a ∉ m.footprint) :
    m.step.memory.get a = m.memory.get a := by
  rw [memory_step]
  exact Memory.get_storeAll_of_notMem (by rwa [cells_writes])

/-- A cell of the footprint is a cell of the stack or the one that an instruction names. -/
theorem storesAt_of_mem_footprint {m : Machine} {a : UInt16} (h : Memory.cell a ∈ m.footprint)
    (ha : ¬ Memory.OnStackPage a) : m.StoresAt a := by
  have hoff : ∀ sp, Memory.cell a ≠ stackAddress sp :=
    fun sp hsp => ha (Memory.onStackPage_of_cell hsp)
  cases hs : m.state.serviceable with
  | some i => simp [footprint, hs, hoff] at h
  | none =>
    have hop : m.upcoming = some m.row.operation := upcoming_eq_some_iff.mpr ⟨hs, rfl⟩
    refine ⟨m.row.operation, hop, ?_⟩
    simp only [footprint, hs] at h
    cases hrow : m.row.operation with
    | store _ | incrementMemory | decrementMemory =>
      simp only [hrow, List.mem_singleton] at h
      exact ⟨rfl, h.symm⟩
    | shift k =>
      by_cases hmode : m.row.mode = .accumulator
      · simp [hrow, hmode] at h
      · simp only [hrow, if_neg hmode, List.mem_singleton] at h
        exact ⟨bne_iff_ne.mpr hmode, h.symm⟩
    | _ => simp [hrow, hoff] at h

/-- A step changes a byte outside the stack page only by storing at its cell. -/
theorem storesAt_of_get_step_ne {m : Machine} {a : UInt16} (ha : ¬ Memory.OnStackPage a)
    (h : m.step.memory.get a ≠ m.memory.get a) : m.StoresAt a :=
  storesAt_of_mem_footprint (Decidable.not_not.mp fun hout => h (get_step_of_notMem hout)) ha

end Machine

namespace Moment

variable {x : Moment} {a : UInt16}

/-- Memory was written from outside. -/
def pokes (x : Moment) : Bool :=
  match x.action with
  | .load _ _ | .store _ _ | .clearMemory => true
  | _ => false

/-- An instruction was executed that stores at the cell of `a`. -/
def StoresAt (x : Moment) (a : UInt16) : Prop := x.ran.isSome ∧ x.before.machine.StoresAt a

/-- Where nothing runs, memory changes from outside alone. -/
theorem memory_after_of_ran_eq_none (hrun : ∀ n, x.action ≠ .run n) (h : x.ran = none)
    (hpokes : x.pokes = false) : x.after.memory = x.before.memory := by
  rcases x with ⟨c, action⟩
  cases action with
  | load start bytes => cases hpokes
  | store b v => cases hpokes
  | clearMemory => cases hpokes
  | step => cases h
  | tryStep =>
    rcases after_of_tryStep rfl h with hsame | hhalt
    · rw [hsame]
    · rw [hhalt]
      rfl
  | run n => exact absurd rfl (hrun n)
  | _ => rfl

theorem storesAt_of_get_after_ne (hrun : ∀ n, x.action ≠ .run n) (hpokes : x.pokes = false)
    (ha : ¬ Memory.OnStackPage a) (h : x.after.memory.get a ≠ x.before.memory.get a) :
    x.StoresAt a := by
  cases hran : x.ran with
  | none => exact absurd (by rw [memory_after_of_ran_eq_none hrun hran hpokes]) h
  | some act =>
    rw [Cpu.memory, (machine_after_of_ran hran).2] at h
    exact ⟨by rw [hran]; rfl, Machine.storesAt_of_get_step_ne ha h⟩

end Moment

namespace Cpu

/-- Where a byte outside the stack page differs after some steps, one of them stored at its cell. -/
theorem exists_storesAt_of_get_after_ne {c : Cpu} {n : Nat} {a : UInt16}
    (ha : ¬ Memory.OnStackPage a) (h : (c.after n).memory.get a ≠ c.memory.get a) :
    ∃ k < n, (c.after k).machine.StoresAt a := by
  induction n with
  | zero => exact absurd rfl h
  | succ n ih =>
    by_cases hlast : (c.after n).memory.get a = c.memory.get a
    · rw [← hlast, memory, machine_after_succ] at h
      exact ⟨n, Nat.lt_succ_self n, Machine.storesAt_of_get_step_ne ha h⟩
    · obtain ⟨k, hk, hstores⟩ := ih hlast
      exact ⟨k, Nat.lt_succ_of_lt hk, hstores⟩

/-- A step changes bytes in its footprint alone. Over any number of steps, and over any history of
requests, resets and register changes between them, a byte outside the stack page therefore changes
only where an instruction stores at an effective address in the very cell. -/
theorem changes_within_footprint (c : Cpu) :
    (∀ a, c.step.cpu.memory.get a ≠ c.memory.get a → Memory.cell a ∈ c.machine.footprint) ∧
    (c.machine.row.mode = .accumulator → c.machine.effective = 0) ∧
    (∀ n a, ¬ Memory.OnStackPage a → (c.after n).memory.get a ≠ c.memory.get a →
      ∃ k < n, (c.after k).machine.StoresAt a) ∧
    (∀ history, ∀ x ∈ c.life history, x.pokes = false → ∀ a, ¬ Memory.OnStackPage a →
      x.after.memory.get a ≠ x.before.memory.get a → x.StoresAt a) := by
  refine ⟨?_, ?_, ?_, ?_⟩
  · intro a h
    exact Decidable.not_not.mp fun hout => h (Machine.get_step_of_notMem hout)
  · intro hmode
    rw [Machine.effective, hmode]
    rfl
  · intro n a ha h
    exact exists_storesAt_of_get_after_ne ha h
  · intro history x hx hpokes a ha h
    exact Moment.storesAt_of_get_after_ne (action_ne_run hx) hpokes ha h

/-- ASL A and then a store at a mirror of $0200. -/
def doubling : Cpu :=
  (zero.onMemory (·.load 0 [0x0A, 0x8D, 0x00, 0x0A])).onState ({ · with a := 7 })

theorem changes_within_footprint_doubling :
    doubling.machine.row.mode = .accumulator ∧ doubling.machine.effective = 0 ∧
      (doubling.after 2).memory.get 0x0200 = 14 ∧
      Memory.cell 0x0200 ∈ (doubling.after 1).machine.footprint ∧
      (∃ k < 2, (doubling.after k).machine.StoresAt 0x0200) ∧
      Moment.StoresAt ⟨doubling.after 1, .step⟩ 0x0200 := by
  have hmode : doubling.machine.row.mode = .accumulator := by decide +kernel
  have hoff : ¬ Memory.OnStackPage 0x0200 := by decide
  have hvalue : (doubling.after 2).memory.get 0x0200 = 14 := by decide +kernel
  have hstep : (doubling.after 1).step.cpu.memory.get 0x0200 ≠
      (doubling.after 1).memory.get 0x0200 := by decide +kernel
  have hrun : (doubling.after 2).memory.get 0x0200 ≠ doubling.memory.get 0x0200 := by
    decide +kernel
  have hsecond : (⟨doubling.after 1, .step⟩ : Moment) ∈ doubling.life [.step, .step] :=
    .tail _ (.head _)
  obtain ⟨-, hzero, hsteps, hhistory⟩ := changes_within_footprint doubling
  refine ⟨hmode, hzero hmode, hvalue, ?_, hsteps 2 _ hoff hrun, ?_⟩
  · exact (changes_within_footprint (doubling.after 1)).1 _ hstep
  · exact hhistory _ _ hsecond rfl _ hoff hstep

end Cpu

end Mos6502
