import Mos6502.Proofs.Successor

/-!
# The accumulator group

The opcodes whose two low bits are 01 combine the accumulator with the byte at their operand. Their
three high bits select the operation and the three bits below these the mode; only $89, which would
store to an immediate operand, falls out. `AccumulatorOp.result` gives the registers after each
operation in plain numbers.
-/

namespace Mos6502

namespace Opcode

/-- The bits of an opcode byte that select the operation within its group. -/
def operationBits (v : UInt8) : UInt8 := v >>> 5

/-- The bits of an opcode byte that select the mode within its group. -/
def modeBits (v : UInt8) : UInt8 := (v >>> 2) &&& 7

end Opcode

/-- The status with zero and negative read off the byte `v`. -/
def Status.withZN (p : Status) (v : UInt8) : Status :=
  { p with zero := decide (v = 0), negative := v.toNat.testBit 7 }

inductive AccumulatorOp where
  | ora | and | eor | adc | sta | lda | cmp | sbc
  deriving DecidableEq, Repr

namespace AccumulatorOp

def ofByte (v : UInt8) : AccumulatorOp :=
  match Opcode.operationBits v with
  | 0 => ora
  | 1 => and
  | 2 => eor
  | 3 => adc
  | 4 => sta
  | 5 => lda
  | 6 => cmp
  | _ => sbc

/-- The mode of an opcode of the group. -/
def mode (v : UInt8) : Mode :=
  match Opcode.modeBits v with
  | 0 => .indexedIndirect
  | 1 => .zeroPage
  | 2 => .immediate
  | 3 => .absolute
  | 4 => .indirectIndexed
  | 5 => .zeroPageX
  | 6 => .absoluteY
  | _ => .absoluteX

def operation : AccumulatorOp → Operation
  | ora => .logic .ora
  | and => .logic .and
  | eor => .logic .eor
  | adc => .adc
  | sta => .store .a
  | lda => .load .a
  | cmp => .compare .a
  | sbc => .sbc

/-- The registers after the operation on the byte `v`. Carry and overflow of a sum or a difference
say that it left the range of a byte, without and with a sign. -/
def result (s : State) (v : UInt8) : AccumulatorOp → State
  | ora => { s with a := s.a ||| v, status := s.status.withZN (s.a ||| v) }
  | and => { s with a := s.a &&& v, status := s.status.withZN (s.a &&& v) }
  | eor => { s with a := s.a ^^^ v, status := s.status.withZN (s.a ^^^ v) }
  | adc =>
    let sum := s.a.toNat + v.toNat + s.status.carry.toNat
    { s with
      a := UInt8.ofNat sum
      status := { s.status.withZN (UInt8.ofNat sum) with
        carry := decide (255 < sum)
        overflow := outsideByte (signed s.a + signed v + s.status.carry.toNat) } }
  | sta => s
  | lda => { s with a := v, status := s.status.withZN v }
  | cmp =>
    { s with status := { s.status with
        carry := decide (v.toNat ≤ s.a.toNat)
        zero := decide (s.a = v)
        negative := (UInt8.ofInt (s.a.toNat - v.toNat)).toNat.testBit 7 } }
  | sbc =>
    let difference : Int := s.a.toNat - v.toNat - (1 - s.status.carry.toNat)
    { s with
      a := UInt8.ofInt difference
      status := { s.status.withZN (UInt8.ofInt difference) with
        carry := decide (0 ≤ difference)
        overflow := outsideByte (signed s.a - signed v - (1 - s.status.carry.toNat)) } }

/-- The opcode table agrees with the bits. -/
theorem decode_eq {v : UInt8} (hgroup : v % 4 = 1) (hne : v ≠ 0x89) :
    (Opcode.decode v).operation = (ofByte v).operation ∧ (Opcode.decode v).mode = mode v :=
  forall_byte
    (P := fun v => v % 4 = 1 → v ≠ 0x89 →
      (Opcode.decode v).operation = (ofByte v).operation ∧ (Opcode.decode v).mode = mode v)
    (by decide +kernel) v hgroup hne

theorem operation_ne_brk (op : AccumulatorOp) : op.operation ≠ .brk := by
  cases op <;> decide

/-- Where the program goes on does not matter to the result. -/
theorem result_advance (op : AccumulatorOp) (s : State) (v : UInt8) (n : UInt16) :
    op.result (s.advance n) v = (op.result s v).advance n := by
  cases op <;> rfl

end AccumulatorOp

/-- What a store that need not happen shows. -/
theorem Memory.get_ite_set (m : Memory) (p : Prop) [Decidable p] (a b : UInt16) (v : UInt8) :
    (if p then m.set a v else m).get b = if p ∧ cell a = cell b then v else m.get b := by
  by_cases hp : p <;> simp [hp, get_set]

namespace Machine

/-- Any instruction but BRK executes with the program counter past its opcode and operand. -/
theorem step_of_row {m : Machine} {op : Operation} {mode : Mode}
    (hfree : m.state.serviceable = none) (hop : m.row.operation = op) (hmode : m.row.mode = mode)
    (hbrk : op ≠ .brk) :
    m.step = (m.onState (·.advance (UInt16.ofNat (1 + mode.operandLength)))).execute op mode
      (m.resolve mode).address := by
  subst hmode
  have hlength : m.row.length = 1 + m.row.mode.operandLength :=
    Opcode.length_of_ne_brk (hop.symm ▸ hbrk)
  rw [step_of_upcoming (upcoming_eq_some_iff.mpr ⟨hfree, hop⟩), hlength]

theorem execute_accumulatorOp (m : Machine) (op : AccumulatorOp) (mode : Mode) (a : UInt16) :
    m.execute op.operation mode a =
      ⟨op.result m.state (m.memory.get a),
        if op = .sta then m.memory.set a m.state.a else m.memory⟩ := by
  cases op with
  | adc => exact congrArg (Machine.mk · m.memory) (m.state.adc_eq _)
  | sbc => exact congrArg (Machine.mk · m.memory) (m.state.sbc_eq _)
  | cmp => exact congrArg (Machine.mk · m.memory) (m.state.compare_eq _ m.state.a)
  | _ => rfl

/-- A step of the group computes what the bits of the opcode say. -/
theorem step_accumulatorOp {m : Machine} (hfree : m.state.serviceable = none)
    (hgroup : m.memory.get m.state.pc % 4 = 1) (hne : m.memory.get m.state.pc ≠ 0x89) :
    let op := AccumulatorOp.ofByte (m.memory.get m.state.pc)
    let mode := AccumulatorOp.mode (m.memory.get m.state.pc)
    let a := UInt16.ofNat (m.operandAddress mode)
    m.step =
      ⟨(op.result m.state (m.memory.get a)).advance (UInt16.ofNat (1 + mode.operandLength)),
        if op = .sta then m.memory.set a m.state.a else m.memory⟩ := by
  obtain ⟨hop, hmode⟩ := AccumulatorOp.decode_eq hgroup hne
  simp only [← AccumulatorOp.result_advance]
  rw [step_of_row hfree hop hmode (AccumulatorOp.operation_ne_brk _), execute_accumulatorOp,
    address_resolve]
  rfl

end Machine

namespace Cpu

/-- The accumulator group decodes and computes as its bits say. Where no interrupt comes first, an
opcode of the group leaves the registers that `AccumulatorOp.result` gives for the byte at its
effective address, with the program counter past the instruction. STA writes the accumulator to the
cell of that address, and no other byte changes. -/
theorem accumulator_group_step (c : Cpu) (hfree : c.state.serviceable = none)
    (hgroup : c.memory.get c.state.pc % 4 = 1) (hne : c.memory.get c.state.pc ≠ 0x89) :
    let op := AccumulatorOp.ofByte (c.memory.get c.state.pc)
    let mode := AccumulatorOp.mode (c.memory.get c.state.pc)
    let a := UInt16.ofNat (c.machine.operandAddress mode)
    c.step.cpu.state =
        (op.result c.state (c.memory.get a)).advance (UInt16.ofNat (1 + mode.operandLength)) ∧
      ∀ b, c.step.cpu.memory.get b =
        if op = .sta ∧ Memory.cell a = Memory.cell b then c.state.a else c.memory.get b := by
  intro op mode a
  have hstep := Machine.step_accumulatorOp hfree hgroup hne
  constructor
  · rw [state, machine_step, hstep]
  · intro b
    rw [memory, machine_step, hstep]
    exact Memory.get_ite_set _ _ _ _ _

/-- SBC ($10),Y with a page crossing, a borrow and an overflow. -/
def subtracting : Cpu :=
  (zero.onMemory fun m => ((m.load 0 [0xF1, 0x10]).load 0x10 [0xFF, 0x02]).set 0x0301 0x01).onState
    fun s => { s with a := 0x80, y := 0x02 }

theorem accumulator_group_step_subtracting :
    subtracting.state.serviceable = none ∧ subtracting.memory.get subtracting.state.pc % 4 = 1 ∧
      subtracting.memory.get subtracting.state.pc ≠ 0x89 ∧
      subtracting.step.cpu.state.a = 0x7E ∧
      subtracting.step.cpu.state.status =
        { Status.clear with carry := true, overflow := true } ∧
      subtracting.step.cpu.memory.get 0x0301 = 0x01 := by
  have hfree : subtracting.state.serviceable = none := by decide +kernel
  have hgroup : subtracting.memory.get subtracting.state.pc % 4 = 1 := by decide +kernel
  have hne : subtracting.memory.get subtracting.state.pc ≠ 0x89 := by decide +kernel
  obtain ⟨hstate, hmemory⟩ := accumulator_group_step subtracting hfree hgroup hne
  refine ⟨hfree, hgroup, hne, ?_, ?_, ?_⟩
  · rw [hstate]
    decide +kernel
  · rw [hstate]
    decide +kernel
  · rw [hmemory]
    decide +kernel

end Cpu

end Mos6502
