import Mos6502.Demo
import Mos6502.Proofs.BulkLoad
import Mos6502.Proofs.Skips
import Mos6502.Proofs.Strict
import Mos6502.Proofs.Timing

/-!
# A counting loop

The demonstration ends in a loop of two instructions that counts X up to its wrap, with an opcode
without a meaning behind it. Wherever the loop stands, also around the end of the address space, a
strict run goes through one round for each count that X has left and stops in front of that opcode.
`Machine.round` is the contract of a round; the cycles of the whole run follow by induction on the
rounds that are left.
-/

namespace Mos6502

namespace Machine

/-- INX, BNE back to it and KIL, as the demonstration ends. -/
def countingLoop : List UInt8 := [0xE8, 0xD0, 0xFD, 0x02]

/-- INX, BNE back to it and KIL stand at the program counter, and strict execution would go on with
them. -/
structure Counting (m : Machine) : Prop where
  running : m.state.halted = false
  free : m.state.serviceable = none
  inx : m.memory.get m.state.pc = 0xE8
  bne : m.memory.get (m.state.pc + 1) = 0xD0
  back : m.memory.get (m.state.pc + 2) = 0xFD
  kil : m.memory.get (m.state.pc + 3) = 0x02

/-- The loop stands wherever it has been loaded. -/
theorem counting_load (m : Machine) (hrunning : m.state.halted = false)
    (hfree : m.state.serviceable = none) :
    Counting { m with memory := m.memory.load m.state.pc countingLoop } := by
  have hshort : countingLoop.length ≤ 2048 := by decide
  have hread := m.memory.map_get_load_of_length_le m.state.pc hshort
  -- The range of positions is closed, so the list that is read has four entries.
  change [_, _, _, _] = _ at hread
  simp only [countingLoop, List.cons.injEq, and_true] at hread
  obtain ⟨hinx, hbne, hback, hkil⟩ := hread
  have hzero : m.state.pc + UInt16.ofNat 0 = m.state.pc := UInt16.add_zero _
  rw [hzero] at hinx
  exact ⟨hrunning, hfree, hinx, hbne, hback, hkil⟩

/-- The counts that X has left before it wraps. -/
def rounds (m : Machine) : Nat := 256 - m.state.x.toNat

/-- What the branch back costs for the page that it leaves. -/
def pageCost (m : Machine) : Nat := (pagesDiffer m.state.pc (m.state.pc + 3)).toNat

theorem pageCost_eq (m : Machine) :
    m.pageCost = if highByte m.state.pc = highByte (m.state.pc + 3) then 0 else 1 := by
  rw [pageCost, pagesDiffer, bne]
  split <;> simp_all

theorem pageCost_le (m : Machine) : m.pageCost ≤ 1 := Bool.toNat_le _

/-- X has been counted, and the branch comes next. -/
def halfway (m : Machine) : Machine := (m.onState (·.increment .x)).jump (m.state.pc + 1)

/-- The machine after a round: in front of the loop again or, where X has wrapped, behind it. -/
def round (m : Machine) : Machine :=
  (m.onState (·.increment .x)).jump (if m.state.x + 1 = 0 then m.state.pc + 3 else m.state.pc)

/-- The cycles of a round; only the last one does not go back. -/
def roundCycles (m : Machine) : Nat := if m.state.x + 1 = 0 then 4 else 5 + m.pageCost

/-- The machine after the last round. -/
def counted (m : Machine) : Machine :=
  m.onState fun s =>
    { s with pc := s.pc + 3, x := 0, status := { s.status with zero := true, negative := false } }

/-- An instruction that does something is not refused. -/
theorem not_stuck_of_upcoming {m : Machine} {op : Operation} (h : m.upcoming = some op)
    (hop : ∀ u, op ≠ .skip u) : ¬ m.Stuck := by
  rintro ⟨-, hkind⟩
  obtain ⟨u, hu⟩ := Opcode.exists_skip_of_unimplemented (Opcode.unimplemented_iff.mpr (.inr hkind))
  exact hop u ((upcoming_eq_some_iff.mp h).2.symm.trans hu)

namespace Counting

variable {m : Machine}

theorem upcoming (h : m.Counting) : m.upcoming = some (.increment .x) :=
  upcoming_of_opcode h.free h.inx

theorem upcoming_halfway (h : m.Counting) : m.halfway.upcoming = some (.branch .bne) :=
  upcoming_of_opcode (m := m.halfway) (v := 0xD0) h.free h.bne

theorem row_eq (h : m.Counting) : m.row = .row (.increment .x) .implied 1 2 := by
  rw [row, h.inx]
  rfl

theorem step (h : m.Counting) : m.step = m.halfway := by
  rw [step_of_upcoming h.upcoming, h.row_eq]
  rfl

theorem cycles (h : m.Counting) : m.cycles m.next = 2 := by
  rw [cycles_of_upcoming h.upcoming (by rw [h.row_eq]; rfl), h.row_eq]
  rfl

/-- The branch is taken until X has wrapped. -/
theorem taken_halfway (m : Machine) :
    Branch.bne.taken m.halfway.state.status = !decide (m.state.x + 1 = 0) := by
  change ((m.state.x + 1 == 0) == false) = _
  cases h : m.state.x + 1 == 0 <;> simp_all

theorem pc_halfway (m : Machine) : m.halfway.state.pc + 2 = m.state.pc + 3 := UInt16.add_assoc _ 1 2

/-- The operand of the branch names the instruction that counts. -/
theorem target_halfway (h : m.Counting) :
    m.state.pc + 3 + displacement m.halfway.operandByte = m.state.pc := by
  have hbyte : m.halfway.operandByte = 0xFD := by
    rw [← h.back]
    exact congrArg m.memory.get (UInt16.add_assoc m.state.pc 1 1)
  have hback : (3 : UInt16) + displacement 0xFD = 0 := by decide
  rw [hbyte, UInt16.add_assoc, hback, UInt16.add_zero]

theorem step_halfway (h : m.Counting) : m.halfway.step = m.round := by
  rw [step_of_branch h.upcoming_halfway, taken_halfway, pc_halfway, h.target_halfway, round]
  by_cases hx : m.state.x + 1 = 0
  · simp only [hx, decide_true, Bool.not_true, Bool.false_eq_true, ↓reduceIte]
    rfl
  · simp only [hx, decide_false, Bool.not_false, ↓reduceIte]
    rfl

theorem cycles_halfway (h : m.Counting) :
    2 + m.halfway.cycles m.halfway.next = m.roundCycles := by
  have hleaves : m.halfway.leavesPage = pagesDiffer m.state.pc (m.state.pc + 3) := by
    rw [leavesPage_eq, pc_halfway, h.target_halfway]
    exact bne_comm
  rw [cycles_of_branch h.upcoming_halfway, taken_halfway, hleaves, roundCycles, pageCost]
  by_cases hx : m.state.x + 1 = 0
  · simp only [hx, decide_true, Bool.not_true, Bool.false_and, Bool.toNat_false, ↓reduceIte]
  · simp only [hx, decide_false, Bool.not_false, Bool.true_and, Bool.toNat_true, ↓reduceIte]
    omega

/-- While X has not wrapped, a round does nothing but count. -/
theorem round_of_ne (hx : m.state.x + 1 ≠ 0) : m.round = m.onState (·.increment .x) := by
  rw [Machine.round, if_neg hx]
  rfl

/-- While X has not wrapped, the loop stands at the program counter again. -/
theorem round (h : m.Counting) (hx : m.state.x + 1 ≠ 0) : m.round.Counting := by
  rw [round_of_ne hx]
  exact ⟨h.running, h.free, h.inx, h.bne, h.back, h.kil⟩

theorem rounds_round (hx : m.state.x + 1 ≠ 0) : m.round.rounds + 1 = m.rounds := by
  have hlt := m.state.x.toNat_lt
  have hnext : (m.state.x + 1).toNat ≠ 0 := fun h => hx (UInt8.toNat_inj.mp h)
  have hround : m.round.rounds = 256 - (m.state.x + 1).toNat := by
    rw [round_of_ne hx]
    rfl
  rw [UInt8.toNat_add] at hnext hround
  simp only [UInt8.reduceToNat] at hnext hround
  rw [hround, rounds]
  omega

/-- X wraps in the last round. -/
theorem wraps_iff : m.rounds = 1 ↔ m.state.x + 1 = 0 := by
  have hlt := m.state.x.toNat_lt
  rw [rounds, ← UInt8.toNat_inj, UInt8.toNat_add]
  simp only [UInt8.reduceToNat]
  omega

/-- The last round leaves X at 0. -/
theorem round_of_wraps (hx : m.state.x + 1 = 0) : m.round = m.counted := by
  rw [Machine.round, if_pos hx]
  simp only [onState, State.increment, hx]
  rfl

theorem counted_round (hx : m.state.x + 1 ≠ 0) : m.round.counted = m.counted := by
  rw [round_of_ne hx]
  rfl

theorem pageCost_round (hx : m.state.x + 1 ≠ 0) : m.round.pageCost = m.pageCost := by
  rw [round_of_ne hx]
  rfl

/-- Strict execution refuses to go on behind the loop. -/
theorem stuck_counted (h : m.Counting) : m.counted.Stuck := by
  have hrow : m.counted.row = Opcode.decode 0x02 := congrArg Opcode.decode h.kil
  exact ⟨h.free, by rw [hrow]; rfl⟩

end Counting

end Machine

namespace Cpu

open Machine

/-- A strict run of two steps is a round. -/
theorem run_round {c : Cpu} (h : c.machine.Counting) :
    (c.run 2).value = .ok (UInt64.ofNat c.machine.roundCycles) ∧
      (c.run 2).cpu.machine = c.machine.round := by
  have hfirst : (c.after 1).machine = c.machine.halfway := h.step
  have hsecond : (c.after 2).machine = c.machine.round := by
    rw [machine_after_succ, hfirst, h.step_halfway]
  have hsafe : ∀ i < 2, ¬ (c.after i).machine.Stuck := by
    have hinx : ¬ (c.after 0).machine.Stuck := not_stuck_of_upcoming h.upcoming (by simp)
    have hbne : ¬ (c.after 1).machine.Stuck := by
      rw [hfirst]
      exact not_stuck_of_upcoming h.upcoming_halfway (by simp)
    intro i hi
    obtain rfl | rfl : i = 0 ∨ i = 1 := by omega
    · exact hinx
    · exact hbne
  have hcycles : (steps 2 c).value = c.machine.roundCycles := by
    change c.machine.cycles c.machine.next +
      (c.after 1).machine.cycles (c.after 1).machine.next = _
    rw [hfirst, h.cycles, h.cycles_halfway]
  rw [run_of_not_stuck h.running hsafe]
  refine ⟨?_, hsecond⟩
  rw [← hcycles]
  rfl

/-- The rounds that are left take the cycles of the last one and of those before it. -/
theorem run_rounds {c : Cpu} {k : Nat} (h : c.machine.Counting) (hk : c.machine.rounds = k + 1) :
    (c.run (2 * (k + 1))).value = .ok (UInt64.ofNat (5 * k + 4 + k * c.machine.pageCost)) ∧
      (c.run (2 * (k + 1))).cpu.machine = c.machine.counted := by
  -- The induction is on the rounds that are left: a round that does not wrap gives the loop again.
  induction k generalizing c with
  | zero =>
    have hx := Counting.wraps_iff.mp hk
    obtain ⟨hvalue, hmachine⟩ := run_round h
    rw [roundCycles, if_pos hx] at hvalue
    rw [Counting.round_of_wraps hx] at hmachine
    refine ⟨?_, hmachine⟩
    rw [Nat.zero_mul]
    exact hvalue
  | succ k ih =>
    have hx : c.machine.state.x + 1 ≠ 0 := by
      intro hx
      have hlast := Counting.wraps_iff.mpr hx
      omega
    have hleft := Counting.rounds_round hx
    obtain ⟨hvalue, hmachine⟩ := run_round h
    obtain ⟨hrest, hend⟩ := ih (c := (c.run 2).cpu) (by rw [hmachine]; exact h.round hx)
      (by rw [hmachine]; omega)
    have hsteps : 2 * (k + 1 + 1) = 2 + 2 * (k + 1) := by omega
    have htotal : 5 * (k + 1) + 4 + (k + 1) * c.machine.pageCost =
        c.machine.roundCycles + (5 * k + 4 + k * c.machine.pageCost) := by
      rw [roundCycles, if_neg hx, Nat.add_mul k 1]
      omega
    rw [hmachine, Counting.pageCost_round hx] at hrest
    rw [hmachine, Counting.counted_round hx] at hend
    rw [hsteps, run_add_of_ok hvalue, hrest, htotal, UInt64.ofNat_add c.machine.roundCycles]
    exact ⟨rfl, hend⟩

theorem refusal_of_counted {c d : Cpu} (h : c.machine.Counting)
    (hd : d.machine = c.machine.counted) :
    d.refusal = .unassignedOpcode 0x02 (c.state.pc + 3) := by
  have hkil : c.machine.counted.memory.get c.machine.counted.state.pc = 0x02 := h.kil
  rw [refusal, state, memory, hd, hkil]
  rfl

/-- The counting loop ends wherever it stands. With `k` counts left in X, a strict run of `2 * k`
steps leaves the machine behind the loop, changed in PC, X, zero and negative alone. It takes
`5 * k - 1` cycles, and one more for each branch back if the ends of the loop lie on different
pages. Every longer run ends there with the fault of the opcode behind the loop. -/
theorem counting_loop_ends (c : Cpu) (h : c.machine.Counting) :
    let p := c.state.pc
    let k := 256 - c.state.x.toNat
    let d := if highByte p = highByte (p + 3) then 0 else 1
    (c.run (2 * k)).value.map UInt64.toNat = .ok (5 * k - 1 + (k - 1) * d) ∧
    (c.run (2 * k)).cpu.machine =
      c.machine.onState (fun s => { s with
        pc := p + 3
        x := 0
        status := { s.status with zero := true, negative := false } }) ∧
    ∀ n, 2 * k < n →
      (c.run n).value = .error (.unassignedOpcode 0x02 (p + 3)) ∧
      (c.run n).cpu = (c.run (2 * k)).cpu.halt := by
  intro p k d
  have hlt := c.state.x.toNat_lt
  have hk : k - 1 + 1 = k := by
    change 256 - c.state.x.toNat - 1 + 1 = 256 - c.state.x.toNat
    omega
  have hd : c.machine.pageCost = d := c.machine.pageCost_eq
  obtain ⟨hvalue, hmachine⟩ := run_rounds h hk.symm
  rw [hk, hd] at hvalue
  rw [hk] at hmachine
  refine ⟨?_, hmachine, ?_⟩
  · have hpages : (k - 1) * d ≤ k - 1 := by
      have hone : d ≤ 1 := hd ▸ c.machine.pageCost_le
      simpa using Nat.mul_le_mul_left (k - 1) hone
    have hfit : 5 * (k - 1) + 4 + (k - 1) * d < 2 ^ 64 := by omega
    have hcount : 5 * (k - 1) + 4 = 5 * k - 1 := by omega
    rw [hvalue, Except.map, UInt64.toNat_ofNat_of_lt' hfit, hcount]
  · intro n hn
    have hrunning : (c.run (2 * k)).cpu.state.halted = false := by
      rw [state, hmachine]
      exact h.running
    have hstuck : (c.run (2 * k)).cpu.machine.Stuck := hmachine ▸ h.stuck_counted
    obtain ⟨hfault, hhalt⟩ := run_past_stuck hvalue hrunning hstuck hn
    exact ⟨refusal_of_counted h hmachine ▸ hfault, hhalt⟩

/-- The loop around the end of the address space, two counts before X wraps. -/
def aroundEnd : Cpu :=
  let c := zero.onState ({ · with pc := 0xFFFE, x := 0xFE })
  c.onMemory (·.load 0xFFFE countingLoop)

/-- The demonstration in front of its loop takes all 256 rounds; around the end of the address space
the branch back costs a cycle more. -/
theorem counting_loop_ends_demo :
    (Demo.ready.after 3).machine.Counting ∧ (Demo.ready.after 3).state.x = 0 ∧
      ((Demo.ready.after 3).run 512).value.map UInt64.toNat = .ok 1279 ∧
      ((Demo.ready.after 3).run 1000000).value = .error (.unassignedOpcode 0x02 0x800A) ∧
      aroundEnd.machine.Counting ∧ (aroundEnd.run 4).value.map UInt64.toNat = .ok 10 ∧
      (aroundEnd.run 4).cpu.state.pc = 1 := by
  have hplace : (Demo.ready.after 3).state.pc = 0x8007 ∧ (Demo.ready.after 3).state.x = 0 ∧
      (Demo.ready.after 3).state.halted = false ∧ (Demo.ready.after 3).state.serviceable = none ∧
      (Demo.ready.after 3).memory.get 0x8007 = 0xE8 ∧
      (Demo.ready.after 3).memory.get 0x8008 = 0xD0 ∧
      (Demo.ready.after 3).memory.get 0x8009 = 0xFD ∧
      (Demo.ready.after 3).memory.get 0x800A = 0x02 := by
    decide +kernel
  obtain ⟨hpc, hx, hrunning, hfree, hinx, hbne, hback, hkil⟩ := hplace
  have hdemo : (Demo.ready.after 3).machine.Counting := by
    refine ⟨hrunning, hfree, ?_, ?_, ?_, ?_⟩ <;> rw [hpc]
    exacts [hinx, hbne, hback, hkil]
  have haround : aroundEnd.machine.Counting :=
    counting_load (zero.onState ({ · with pc := 0xFFFE, x := 0xFE })).machine rfl rfl
  obtain ⟨hvalue, -, hfault⟩ := counting_loop_ends (Demo.ready.after 3) hdemo
  obtain ⟨hvalue', hmachine', -⟩ := counting_loop_ends aroundEnd haround
  rw [hpc, hx] at hvalue hfault
  refine ⟨hdemo, hx, hvalue, (hfault 1000000 (by decide)).1, haround, hvalue', ?_⟩
  exact congrArg (·.state.pc) hmachine'

end Cpu

end Mos6502
