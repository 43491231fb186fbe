import Mos6502.Proofs.Addresses

/-!
# Timing

One rule gives the cycles of every step. An interrupt entry takes seven. Otherwise the operation
falls into one of a few classes, and the class, the addressing mode and three circumstances decide:
whether indexing carries out of the low byte of the base, whether a branch is taken, and whether
its target lies on another page than the instruction after it. Every row of the opcode table obeys
the rule.
-/

namespace Mos6502

/-- The cycles of an instruction that reads its operand. -/
def Mode.readCycles (crosses : Bool) : Mode → Option Nat
  | immediate => some 2
  | zeroPage => some 3
  | zeroPageX | zeroPageY | absolute => some 4
  | absoluteX | absoluteY => some (4 + crosses.toNat)
  | indexedIndirect => some 6
  | indirectIndexed => some (5 + crosses.toNat)
  | _ => none

/-- The cycles of an instruction that writes its operand. -/
def Mode.storeCycles : Mode → Option Nat
  | zeroPage => some 3
  | zeroPageX | zeroPageY | absolute => some 4
  | absoluteX | absoluteY => some 5
  | indexedIndirect | indirectIndexed => some 6
  | _ => none

/-- The cycles of an instruction that reads its operand and writes it back. -/
def Mode.modifyCycles : Mode → Option Nat
  | accumulator => some 2
  | zeroPage => some 5
  | zeroPageX | absolute => some 6
  | absoluteX | absoluteY => some 7
  | indexedIndirect | indirectIndexed => some 8
  | _ => none

/-- The cycles of a jump. -/
def Mode.jumpCycles : Mode → Option Nat
  | absolute => some 3
  | indirect => some 5
  | _ => none

/-- The rule: the cycles of an operation in a mode. It has no answer for an operation in a mode in
which it does not occur. -/
def Operation.timing (op : Operation) (mode : Mode) (crosses taken leavesPage : Bool) :
    Option Nat :=
  match op with
  | .load _ | .adc | .sbc | .logic _ | .bit | .compare _
  | .skip .lax | .skip .ign | .skip .skb | .skip .anc | .skip .alr | .skip .arr | .skip .xaa
  | .skip .lxa | .skip .axs | .skip .las => mode.readCycles crosses
  | .store _ | .skip .sax | .skip .ahx | .skip .shx | .skip .shy | .skip .tas => mode.storeCycles
  | .shift _ | .incrementMemory | .decrementMemory
  | .skip .slo | .skip .rla | .skip .sre | .skip .rra | .skip .dcp | .skip .isb =>
    mode.modifyCycles
  | .pha | .php => some 3
  | .pla | .plp => some 4
  | .jump => mode.jumpCycles
  | .call | .ret | .rti => some 6
  | .brk => some 7
  | .branch _ => some (2 + taken.toNat + (taken && leavesPage).toNat)
  | .transfer _ | .increment _ | .decrement _ | .flag _ | .nop | .skip .kil =>
    if mode = .implied then some 2 else none

/-- The operation is a branch that the flags let through. -/
def Operation.takes (p : Status) : Operation → Bool
  | branch b => b.taken p
  | _ => false

namespace Opcode

/-- What a branch costs beyond its row. -/
def branchExtra (o : Opcode) (taken leavesPage : Bool) : Nat :=
  match o.operation with
  | .branch _ => taken.toNat + (taken && leavesPage).toNat
  | _ => 0

/-- Every row of the table obeys the rule. -/
theorem timing_decode (v : UInt8) (crosses taken leavesPage : Bool) :
    (decode v).operation.timing (decode v).mode crosses taken leavesPage =
      some ((decode v).cycles + (if crosses && (decode v).pageBonus then 1 else 0) +
        (decode v).branchExtra taken leavesPage) :=
  forall_decode (P := fun o => ∀ crosses taken leavesPage : Bool,
    o.operation.timing o.mode crosses taken leavesPage =
      some (o.cycles + (if crosses && o.pageBonus then 1 else 0) + o.branchExtra taken leavesPage))
    (by decide +kernel) v crosses taken leavesPage

end Opcode

namespace Machine

/-- The mode adds an index that carries out of the low byte of the base. -/
def crosses (m : Machine) (mode : Mode) : Bool :=
  match m.indexing mode with
  | some (base, index) => 255 < base % 256 + index.toNat
  | none => false

/-- The target of a branch lies on another page than the instruction after the branch. -/
def leavesPage (m : Machine) : Bool :=
  (m.state.pc.toNat + 2) % 65536 / 256 != m.operandAddress .relative / 256

/-- The cycles of the next step by the rule. -/
def timing (m : Machine) : Option Nat :=
  match m.state.serviceable with
  | some _ => some 7
  | none =>
    m.row.operation.timing m.row.mode (m.crosses m.row.mode)
      (m.row.operation.takes m.state.status) m.leavesPage

theorem crossed_resolve (m : Machine) (mode : Mode) :
    (m.resolve mode).crossed = m.crosses mode := by
  rw [crosses]
  cases h : m.indexing mode with
  | none => exact crossed_of_indexing_eq_none h
  | some p => exact crossed_of_indexing h

theorem leavesPage_eq (m : Machine) :
    m.leavesPage =
      pagesDiffer (m.state.pc + 2) (m.state.pc + 2 + displacement m.operandByte) := by
  have htarget : m.operandAddress .relative =
      (m.state.pc + 2 + displacement m.operandByte).toNat := (m.toNat_resolve .relative).symm
  have hnext : (m.state.pc + 2).toNat = (m.state.pc.toNat + 2) % 65536 := UInt16.toNat_add _ _
  rw [leavesPage, htarget, ← hnext, pagesDiffer, Bool.eq_iff_iff, bne_iff_ne, bne_iff_ne, Ne, Ne,
    ← UInt8.toNat_inj, toNat_highByte, toNat_highByte]

/-- A branch adds what the rule says. -/
theorem branchCycles_fetch (m : Machine) :
    m.branchCycles m.fetch =
      m.row.branchExtra (m.row.operation.takes m.state.status) m.leavesPage := by
  have hrow : m.fetch.row = m.row := rfl
  rw [branchCycles, Opcode.branchExtra, hrow]
  cases hop : m.row.operation with
  | branch b =>
    obtain ⟨hmode, hlength⟩ := Opcode.shape_of_branch hop
    have htarget : m.fetch.operand.address = m.state.pc + 2 + displacement m.operandByte := by
      change (m.resolve m.row.mode).address = _
      rw [row, hmode]
      rfl
    have hnext : m.fetch.pc + UInt16.ofNat m.row.length = m.state.pc + 2 := by
      rw [row, hlength]
      rfl
    simp only [Operation.takes, leavesPage_eq, htarget, hnext]
    cases b.taken m.state.status <;> cases pagesDiffer (m.state.pc + 2) _ <;> rfl
  | _ => rfl

/-- What an instruction costs that does not mind crossing a page. -/
theorem cycles_of_upcoming {m : Machine} {op : Operation} (h : m.upcoming = some op)
    (hbonus : m.row.pageBonus = false) :
    m.cycles m.next =
      m.row.cycles + m.row.branchExtra (m.row.operation.takes m.state.status) m.leavesPage := by
  have hrow : m.fetch.row = m.row := rfl
  rw [next_of_not_serviceable (upcoming_eq_some_iff.mp h).1, cycles, branchCycles_fetch, hrow,
    hbonus, Bool.and_false, if_neg Bool.false_ne_true, Nat.add_zero]

/-- A branch costs two cycles, one more if it is taken, and one more if it leaves the page. -/
theorem cycles_of_branch {m : Machine} {b : Branch} (h : m.upcoming = some (.branch b)) :
    m.cycles m.next =
      2 + ((b.taken m.state.status).toNat + (b.taken m.state.status && m.leavesPage).toNat) := by
  have hrow := row_of_branch h
  rw [cycles_of_upcoming h (by rw [hrow]; rfl), hrow]
  rfl

end Machine

/-- Every step costs what the rule says, which has an answer for every opcode and every state. -/
theorem Cpu.timing_eq_step_value (c : Cpu) : c.machine.timing = some c.step.value := by
  change c.machine.timing = some (c.machine.cycles c.machine.next)
  cases hs : c.machine.state.serviceable with
  | some i =>
    rw [Machine.timing, hs, Machine.next_of_serviceable hs]
    rfl
  | none =>
    have hrow : c.machine.fetch.row = c.machine.row := rfl
    have hcrossed : c.machine.fetch.operand.crossed = c.machine.crosses c.machine.row.mode :=
      c.machine.crossed_resolve _
    simp only [Machine.timing, hs, Machine.next_of_not_serviceable hs, Machine.cycles,
      Machine.branchCycles_fetch, hcrossed, hrow]
    exact Opcode.timing_decode _ _ _ _

namespace Cpu

/-- LDA $12F0,X where the index carries out of the low byte. -/
def indexingAcross : Cpu :=
  (zero.onMemory (·.load 0 [0xBD, 0xF0, 0x12])).onState ({ · with x := 0x20 })

/-- BNE from page $00 to page $FF. -/
def branchingAcross : Cpu := zero.onMemory (·.load 0 [0xD0, 0xFB])

theorem timing_eq_step_value_across :
    indexingAcross.step.value = 5 ∧ branchingAcross.step.value = 4 := by
  have hload : indexingAcross.machine.timing = some 5 := by decide +kernel
  have hbranch : branchingAcross.machine.timing = some 4 := by decide +kernel
  constructor
  · exact Option.some.inj ((timing_eq_step_value indexingAcross).symm.trans hload)
  · exact Option.some.inj ((timing_eq_step_value branchingAcross).symm.trans hbranch)

end Cpu

end Mos6502
