import Mos6502.Proofs.Stack
import Mos6502.Proofs.Steps

/-!
# Nested calls

While a program uses the stack for calls alone, every return goes on after the call that it closes.
Which call that is follows from the numbers of open calls, as brackets match. The proof carries the
list of open calls along: their return addresses are what the stack holds.
-/

namespace Mos6502

open Machine (stackAddress)

namespace Machine

/-- What the next step adds to the number of open calls. -/
def callBalance (m : Machine) : Int :=
  match m.upcoming with
  | some .call => 1
  | some .ret => -1
  | _ => 0

theorem callBalance_eq_zero {m : Machine} (hcall : m.upcoming ≠ some .call)
    (hret : m.upcoming ≠ some .ret) : m.callBalance = 0 := by
  rw [callBalance]
  split
  · contradiction
  · contradiction
  · rfl

/-- The next step moves neither the stack pointer nor a byte of the stack page. -/
def KeepsStack (m : Machine) : Prop :=
  m.step.state.sp = m.state.sp ∧
    ∀ v, m.step.memory.get (stackAddress v) = m.memory.get (stackAddress v)

/-- The next step is no interrupt entry and uses the stack for a call or a return at most. -/
def UsesStackForCalls (m : Machine) : Prop :=
  m.state.serviceable = none ∧
    (m.upcoming = some .call ∨ m.upcoming = some .ret ∨ m.KeepsStack)

theorem length_of_call {m : Machine} (h : m.upcoming = some .call) : m.row.length = 3 :=
  Opcode.forall_decode (P := fun o => o.operation = .call → o.length = 3) (by decide +kernel)
    (m.memory.get m.state.pc) (upcoming_eq_some_iff.mp h).2

/-- A call pushes the address of its own last byte. -/
theorem Stacked.step_call {m : Machine} {bs : List UInt8} (h : m.Stacked bs)
    (hlen : bs.length + 1 < 256) (hop : m.upcoming = some .call) :
    m.step.Stacked
      (lowByte (m.state.pc + 3 - 1) :: highByte (m.state.pc + 3 - 1) :: bs) := by
  rw [step_of_upcoming hop, length_of_call hop]
  exact Stacked.pushWord (m := m.onState (·.advance 3)) h hlen _

theorem Stacked.step_ret {m : Machine} {low high : UInt8} {bs : List UInt8}
    (h : m.Stacked (low :: high :: bs)) (hop : m.upcoming = some .ret) :
    m.step.Stacked bs ∧ m.step.state.pc = word high low + 1 := by
  rw [step_of_upcoming hop]
  have hadvanced : (m.onState (·.advance (UInt16.ofNat m.row.length))).Stacked
      (low :: high :: bs) := h
  refine ⟨hadvanced.popWord, ?_⟩
  rw [← hadvanced.popWord_value]
  rfl

theorem sp_step_call {m : Machine} (hop : m.upcoming = some .call) :
    m.step.state.sp = m.state.sp - 1 - 1 := by
  rw [step_of_upcoming hop]
  rfl

theorem sp_step_ret {m : Machine} (hop : m.upcoming = some .ret) :
    m.step.state.sp = m.state.sp + 1 + 1 := by
  rw [step_of_upcoming hop]
  rfl

theorem Stacked.step_keeps {m : Machine} {bs : List UInt8} (h : m.Stacked bs)
    (hkeep : m.KeepsStack) : m.step.Stacked bs := by
  rw [Stacked, hkeep.1]
  exact Memory.Holds.congr hkeep.2 h

theorem keepsStack_of_nop {m : Machine} (hop : m.upcoming = some .nop) : m.KeepsStack := by
  rw [KeepsStack, step_of_upcoming hop]
  exact ⟨rfl, fun _ => rfl⟩

end Machine

namespace Cpu

/-- The calls less the returns among the first `n` steps. -/
def openCalls (c : Cpu) : Nat → Int
  | 0 => 0
  | n + 1 => c.openCalls n + (c.after n).machine.callBalance

/-- The first `n` steps use the stack for calls alone, close no call that they did not open, and
never have more open than the stack page has room for. -/
structure Nests (c : Cpu) (n : Nat) : Prop where
  uses : ∀ k < n, (c.after k).machine.UsesStackForCalls
  nonneg : ∀ k ≤ n, 0 ≤ c.openCalls k
  bounded : ∀ k ≤ n, c.openCalls k ≤ 128

/-- The return of step `j` closes the call of step `i`: as many calls are open after the one as
before the other, and more at every moment between. -/
structure Matches (c : Cpu) (i j : Nat) : Prop where
  before : i < j
  call : (c.after i).machine.upcoming = some .call
  ret : (c.after j).machine.upcoming = some .ret
  closes : c.openCalls (j + 1) = c.openCalls i
  inside : ∀ k, i < k → k ≤ j → c.openCalls i < c.openCalls k

theorem Nests.mono {c : Cpu} {m n : Nat} (h : c.Nests n) (hmn : m ≤ n) : c.Nests m :=
  ⟨fun k hk => h.uses k (by omega), fun k hk => h.nonneg k (by omega),
    fun k hk => h.bounded k (by omega)⟩

/-- Brackets match in one way only. -/
theorem Matches.unique {c : Cpu} {i i' j : Nat} (h : c.Matches i j) (h' : c.Matches i' j) :
    i = i' := by
  have hcloses := h.closes
  have hcloses' := h'.closes
  rcases Nat.lt_trichotomy i i' with hlt | heq | hgt
  · have := h.inside i' hlt (Nat.le_of_lt h'.before)
    omega
  · exact heq
  · have := h'.inside i hgt (Nat.le_of_lt h.before)
    omega

/-- The bytes that the calls of the given steps left on the stack, the last call first. -/
def returnBytes (c : Cpu) (sites : List Nat) : List UInt8 :=
  sites.flatMap fun i =>
    [lowByte ((c.after i).state.pc + 3 - 1), highByte ((c.after i).state.pc + 3 - 1)]

theorem length_returnBytes (c : Cpu) (sites : List Nat) :
    (c.returnBytes sites).length = 2 * sites.length := by
  induction sites with
  | nil => rfl
  | cons i sites ih =>
    simp only [returnBytes, List.flatMap_cons, List.length_append] at *
    simp only [List.length_cons, List.length_nil, ih]
    omega

/-- The call of step `i`, made over `depth` open ones, is still open before step `k`. -/
structure Encloses (c : Cpu) (i depth k : Nat) : Prop where
  before : i < k
  call : (c.after i).machine.upcoming = some .call
  depth : c.openCalls i = depth
  inside : ∀ l, i < l → l ≤ k → c.openCalls i < c.openCalls l

/-- The steps in the list are the calls still open before step `k`, the last first, and the stack
holds their return addresses. -/
structure Open (c : Cpu) (k : Nat) (sites : List Nat) : Prop where
  count : c.openCalls k = sites.length
  sp : (c.after k).state.sp = c.state.sp - 2 * UInt8.ofNat sites.length
  stacked : (c.after k).machine.Stacked (c.returnBytes sites)
  enclosing : ∀ i rest, i :: rest <:+ sites → c.Encloses i rest.length k

theorem open_zero (c : Cpu) : c.Open 0 [] where
  count := rfl
  sp := by simp
  stacked := trivial
  enclosing i rest h := by simp at h

/-- A call that was open stays open while the count stays above its own. -/
theorem Open.enclosing_succ {c : Cpu} {k i : Nat} {rest sites sites' : List Nat}
    (h : c.Open k sites) (hcount : c.openCalls (k + 1) = sites'.length)
    (hold : i :: rest <:+ sites) (hnew : i :: rest <:+ sites') :
    c.Encloses i rest.length (k + 1) := by
  obtain ⟨hi, hcall, hdepth, hinside⟩ := h.enclosing i rest hold
  have hlength := hnew.length_le
  simp only [List.length_cons] at hlength
  refine ⟨by omega, hcall, hdepth, ?_⟩
  intro l hl hle
  rcases Nat.lt_or_eq_of_le hle with hlt | rfl
  · exact hinside l hl (by omega)
  · omega

/-- A call opens. -/
theorem Open.call {c : Cpu} {k : Nat} {sites : List Nat} (h : c.Open k sites)
    (hroom : sites.length < 128) (hop : (c.after k).machine.upcoming = some .call) :
    c.Open (k + 1) (k :: sites) := by
  have hone : c.openCalls (k + 1) = c.openCalls k + 1 := by
    simp only [openCalls, Machine.callBalance, hop]
  have hcount : c.openCalls (k + 1) = (k :: sites).length := by
    rw [hone, h.count]
    simp
  have hbytes := c.length_returnBytes sites
  refine ⟨hcount, ?_, ?_, ?_⟩
  · rw [state, machine_after_succ, Machine.sp_step_call hop, ← state, h.sp]
    simp only [List.length_cons, UInt8.ofNat_add]
    grind
  · rw [machine_after_succ]
    exact h.stacked.step_call (by omega) hop
  · intro i rest hsuffix
    rcases List.suffix_cons_iff.mp hsuffix with hall | hold
    · obtain ⟨rfl, rfl⟩ := List.cons.inj hall
      refine ⟨by omega, hop, h.count, ?_⟩
      intro l hl hle
      obtain rfl : l = i + 1 := by omega
      omega
    · exact h.enclosing_succ hcount hold hsuffix

/-- A return closes the call that was opened last. -/
theorem Open.ret {c : Cpu} {k i : Nat} {sites : List Nat} (h : c.Open k (i :: sites))
    (hop : (c.after k).machine.upcoming = some .ret) :
    c.Open (k + 1) sites ∧ c.Matches i k ∧
      (c.after (k + 1)).state.pc = (c.after i).state.pc + 3 := by
  have hone : c.openCalls (k + 1) = c.openCalls k - 1 := by
    simp only [openCalls, Machine.callBalance, hop]
    omega
  have hcount : c.openCalls (k + 1) = sites.length := by
    rw [hone, h.count]
    simp
  obtain ⟨hstacked, hpc⟩ := Machine.Stacked.step_ret h.stacked hop
  obtain ⟨hi, hcall, hdepth, hinside⟩ := h.enclosing i sites (List.suffix_refl _)
  refine ⟨⟨hcount, ?_, ?_, ?_⟩, ⟨hi, hcall, hop, by omega, hinside⟩, ?_⟩
  · rw [state, machine_after_succ, Machine.sp_step_ret hop, ← state, h.sp]
    simp only [List.length_cons, UInt8.ofNat_add]
    grind
  · rw [machine_after_succ]
    exact hstacked
  · intro j rest hsuffix
    exact h.enclosing_succ hcount (hsuffix.trans (List.suffix_cons i sites)) hsuffix
  · rw [state, machine_after_succ, hpc, word_highByte_lowByte]
    grind

/-- Any other step leaves the open calls as they are. -/
theorem Open.keeps {c : Cpu} {k : Nat} {sites : List Nat} (h : c.Open k sites)
    (hcall : (c.after k).machine.upcoming ≠ some .call)
    (hret : (c.after k).machine.upcoming ≠ some .ret)
    (hkeep : (c.after k).machine.KeepsStack) : c.Open (k + 1) sites := by
  have hcount : c.openCalls (k + 1) = sites.length := by
    rw [openCalls, Machine.callBalance_eq_zero hcall hret, Int.add_zero, h.count]
  refine ⟨hcount, ?_, ?_, ?_⟩
  · rw [state, machine_after_succ, hkeep.1, ← state, h.sp]
  · rw [machine_after_succ]
    exact h.stacked.step_keeps hkeep
  · intro i rest hsuffix
    exact h.enclosing_succ hcount hsuffix hsuffix

/-- The open calls of a nesting run can be listed. -/
theorem Nests.exists_open {c : Cpu} {n : Nat} (h : c.Nests n) : ∃ sites, c.Open n sites := by
  induction n with
  | zero => exact ⟨[], c.open_zero⟩
  | succ n ih =>
    obtain ⟨sites, hopen⟩ := ih (h.mono (Nat.le_succ n))
    have hnext := h.nonneg (n + 1) (Nat.le_refl _)
    have hroom := h.bounded (n + 1) (Nat.le_refl _)
    have hcount := hopen.count
    rw [openCalls] at hnext hroom
    by_cases hcall : (c.after n).machine.upcoming = some .call
    · simp only [Machine.callBalance, hcall] at hroom
      exact ⟨n :: sites, hopen.call (by omega) hcall⟩
    · by_cases hret : (c.after n).machine.upcoming = some .ret
      · simp only [Machine.callBalance, hret] at hnext
        cases sites with
        | nil => simp only [List.length_nil] at hcount; omega
        | cons i sites => exact ⟨sites, (hopen.ret hret).1⟩
      · have huses := (h.uses n (Nat.lt_succ_self n)).2
        have hkeep := (huses.resolve_left hcall).resolve_left hret
        exact ⟨sites, hopen.keeps hcall hret hkeep⟩

/-- At every point the stack pointer is two bytes lower for each open call. -/
theorem Nests.sp {c : Cpu} {n : Nat} (h : c.Nests n) :
    ((c.after n).state.sp.toNat : Int) = (c.state.sp.toNat - 2 * c.openCalls n) % 256 := by
  obtain ⟨sites, hopen⟩ := h.exists_open
  have hlength := h.bounded n (Nat.le_refl n)
  rw [hopen.count] at hlength ⊢
  rw [hopen.sp]
  simp only [UInt8.toNat_sub, UInt8.toNat_mul, UInt8.toNat_ofNat', UInt8.reduceToNat]
  omega

/-- A return has a call that it closes, and goes on right after it. -/
theorem Nests.ret {c : Cpu} {n : Nat} (h : c.Nests (n + 1))
    (hret : (c.after n).machine.upcoming = some .ret) :
    ∃ i, c.Matches i n ∧ (c.after (n + 1)).state.pc = (c.after i).state.pc + 3 := by
  obtain ⟨sites, hopen⟩ := (h.mono (Nat.le_succ n)).exists_open
  have hnext := h.nonneg (n + 1) (Nat.le_refl _)
  have hcount := hopen.count
  simp only [openCalls, Machine.callBalance, hret] at hnext
  cases sites with
  | nil => simp only [List.length_nil] at hcount; omega
  | cons i sites => exact ⟨i, (hopen.ret hret).2⟩

/-- In a run that uses the stack for calls alone, never closes more calls than it opened and has at
most 128 of them open, every return goes on three bytes after the address of the one call that it
matches, and the stack pointer counts the open calls. -/
theorem ret_returns_after_matching_call (c : Cpu) (n : Nat) (h : c.Nests n) :
    (∀ j < n, (c.after j).machine.upcoming = some .ret →
      ∃ i, c.Matches i j ∧ (∀ i', c.Matches i' j → i' = i) ∧
        (c.after (j + 1)).state.pc = (c.after i).state.pc + 3) ∧
    ∀ k ≤ n, ((c.after k).state.sp.toNat : Int) = (c.state.sp.toNat - 2 * c.openCalls k) % 256 := by
  constructor
  · intro j hj hret
    obtain ⟨i, hmatches, hpc⟩ := (h.mono hj).ret hret
    exact ⟨i, hmatches, fun i' h' => h'.unique hmatches, hpc⟩
  · intro k hk
    exact (h.mono hk).sp

/-- Two nested calls from an empty stack pointer: JSR across the end of the address space, JSR, NOP
and two RTS. -/
def nestedCalls : Cpu :=
  (zero.onMemory fun m =>
    ((m.load 0xFFFE [0x20, 0x00, 0x03]).load 0x0300 [0x20, 0x00, 0x04, 0x60]).load 0x0400
      [0xEA, 0x60]).onState ({ · with pc := 0xFFFE })

theorem upcoming_nestedCalls :
    (nestedCalls.after 0).machine.upcoming = some .call ∧
      (nestedCalls.after 1).machine.upcoming = some .call ∧
      (nestedCalls.after 2).machine.upcoming = some .nop ∧
      (nestedCalls.after 3).machine.upcoming = some .ret ∧
      (nestedCalls.after 4).machine.upcoming = some .ret := by
  decide +kernel

theorem nests_nestedCalls : nestedCalls.Nests 5 := by
  obtain ⟨h0, h1, h2, h3, h4⟩ := upcoming_nestedCalls
  have hnone {m : Machine} {op : Operation} (h : m.upcoming = some op) :
      m.state.serviceable = none := (Machine.upcoming_eq_some_iff.mp h).1
  have hkeep := Machine.keepsStack_of_nop h2
  have hdepth : ∀ k ≤ 5, 0 ≤ nestedCalls.openCalls k ∧ nestedCalls.openCalls k ≤ 128 := by
    intro k hk
    obtain rfl | rfl | rfl | rfl | rfl | rfl :
        k = 0 ∨ k = 1 ∨ k = 2 ∨ k = 3 ∨ k = 4 ∨ k = 5 := by omega
    all_goals simp [openCalls, Machine.callBalance, h0, h1, h2, h3, h4, -after_zero]
  refine ⟨?_, fun k hk => (hdepth k hk).1, fun k hk => (hdepth k hk).2⟩
  intro k hk
  obtain rfl | rfl | rfl | rfl | rfl : k = 0 ∨ k = 1 ∨ k = 2 ∨ k = 3 ∨ k = 4 := by omega
  · exact ⟨hnone h0, .inl h0⟩
  · exact ⟨hnone h1, .inl h1⟩
  · exact ⟨hnone h2, .inr (.inr hkeep)⟩
  · exact ⟨hnone h3, .inr (.inl h3)⟩
  · exact ⟨hnone h4, .inr (.inl h4)⟩

theorem ret_returns_after_matching_call_nestedCalls :
    nestedCalls.Nests 5 ∧ (nestedCalls.after 4).machine.upcoming = some .ret ∧
      ∃ i, nestedCalls.Matches i 4 ∧ (∀ i', nestedCalls.Matches i' 4 → i' = i) ∧
        (nestedCalls.after 5).state.pc = (nestedCalls.after i).state.pc + 3 := by
  obtain ⟨-, -, -, -, hret⟩ := upcoming_nestedCalls
  have h := ret_returns_after_matching_call nestedCalls 5 nests_nestedCalls
  exact ⟨nests_nestedCalls, hret, h.1 4 (by decide) hret⟩

end Cpu

end Mos6502
