import Mos6502.Proofs.AccumulatorGroup

/-!
# The read-modify-write group

The opcodes whose two low bits are 10 shift, rotate, count down and up, and move X. The three high
bits select the operation and the three bits below these the mode, with Y in place of X where X
itself is moved. A shift takes its operand from the accumulator or from memory and puts the result
back where the operand was; apart from that its two forms are one operation.
-/

namespace Mos6502

inductive ModifyOp where
  | asl | rol | lsr | ror | stx | ldx | dec | inc
  deriving DecidableEq, Repr

namespace ModifyOp

/-- Where the result of an operation goes. -/
inductive Target where
  | a | x | memory
  deriving DecidableEq, Repr

def ofByte (v : UInt8) : ModifyOp :=
  match Opcode.operationBits v with
  | 0 => asl
  | 1 => rol
  | 2 => lsr
  | 3 => ror
  | 4 => stx
  | 5 => ldx
  | 6 => dec
  | _ => inc

/-- The operation rearranges the bits of its operand. -/
def shifts : ModifyOp → Bool
  | asl | rol | lsr | ror => true
  | stx | ldx | dec | inc => false

/-- The mode of an opcode, if the group has the opcode. -/
def mode (v : UInt8) : Option Mode :=
  let op := ofByte v
  match Opcode.modeBits v with
  | 0 => if v = 0xA2 then some .immediate else none
  | 1 => some .zeroPage
  | 2 => if op.shifts then some .accumulator else none
  | 3 => some .absolute
  | 5 => some (if op = stx ∨ op = ldx then .zeroPageY else .zeroPageX)
  | 7 => if v = 0x9E then none else some (if op = ldx then .absoluteY else .absoluteX)
  | _ => none

def operation : ModifyOp → Operation
  | asl => .shift .asl
  | rol => .shift .rol
  | lsr => .shift .lsr
  | ror => .shift .ror
  | stx => .store .x
  | ldx => .load .x
  | dec => .decrementMemory
  | inc => .incrementMemory

def target (mode : Mode) (op : ModifyOp) : Target :=
  if op = ldx then .x
  else if mode = .accumulator then .a
  else .memory

/-- The bit that a rotation shifts in is the old carry; a shift fills up with 0. -/
def carryIn (s : State) : ModifyOp → Nat
  | rol | ror => s.status.carry.toNat
  | _ => 0

/-- The byte that the operation leaves at its target, made from the operand `v`. -/
def value (s : State) (v : UInt8) (op : ModifyOp) : UInt8 :=
  match op with
  | asl | rol => UInt8.ofNat (2 * v.toNat + op.carryIn s)
  | lsr | ror => UInt8.ofNat (v.toNat / 2 + 128 * op.carryIn s)
  | stx => s.x
  | ldx => v
  | dec => UInt8.ofInt (v.toNat - 1)
  | inc => UInt8.ofNat (v.toNat + 1)

/-- A shift leaves the bit that it shifted out. -/
def carryOut (s : State) (v : UInt8) : ModifyOp → Bool
  | asl | rol => v.toNat.testBit 7
  | lsr | ror => v.toNat.testBit 0
  | _ => s.status.carry

/-- The flags after the operation on `v`; a store leaves them alone. -/
def status (s : State) (v : UInt8) (op : ModifyOp) : Status :=
  if op = stx then s.status
  else { s.status.withZN (op.value s v) with carry := op.carryOut s v }

/-- The registers after the operation on `v`. -/
def result (mode : Mode) (s : State) (v : UInt8) (op : ModifyOp) : State :=
  { s with
    a := if op.target mode = .a then op.value s v else s.a
    x := if op.target mode = .x then op.value s v else s.x
    status := op.status s v }

/-- The opcode table agrees with the bits. -/
theorem decode_eq {v : UInt8} {k : Mode} (hgroup : v % 4 = 2) (hmode : mode v = some k) :
    (Opcode.decode v).operation = (ofByte v).operation ∧ (Opcode.decode v).mode = k :=
  forall_byte
    (P := fun v => v % 4 = 2 → ∀ k ∈ mode v,
      (Opcode.decode v).operation = (ofByte v).operation ∧ (Opcode.decode v).mode = k)
    (by decide +kernel) v hgroup k hmode

theorem operation_ne_brk (op : ModifyOp) : op.operation ≠ .brk := by
  cases op <;> decide

/-- Only a shift has an accumulator form. -/
theorem shifts_of_mode {v : UInt8} (hmode : mode v = some .accumulator) :
    (ofByte v).shifts = true :=
  forall_byte (P := fun v => mode v = some .accumulator → (ofByte v).shifts = true)
    (by decide +kernel) v hmode

theorem value_inc (s : State) (v : UInt8) : inc.value s v = v + 1 := by
  simp [value]

theorem value_dec (s : State) (v : UInt8) : dec.value s v = v - 1 := by
  have hv := v.toNat_lt
  apply UInt8.toNat_inj.mp
  simp only [value, toNat_ofInt, UInt8.toNat_sub, UInt8.reduceToNat]
  omega

def ofShift : Shift → ModifyOp
  | .asl => asl
  | .lsr => lsr
  | .rol => rol
  | .ror => ror

/-- The shifted byte as a number: doubled or halved, with the bit that comes in at the free end. -/
theorem value_ofShift (k : Shift) (s : State) (v : UInt8) :
    (ofShift k).value s v = k.result s.status.carry v := by
  have hv := v.toNat_lt
  have hcarry : s.status.carry.toUInt8.toNat = s.status.carry.toNat := s.toNat_carryBit
  apply UInt8.toNat_inj.mp
  cases k <;>
    simp only [ofShift, value, carryIn, Shift.result, UInt8.toNat_ofNat', UInt8.toNat_add,
      UInt8.toNat_mul, UInt8.toNat_div, hcarry, UInt8.reduceToNat] <;>
    omega

theorem status_ofShift (k : Shift) (s : State) (v : UInt8) :
    (ofShift k).status s v = (s.shifted k v).status := by
  rw [State.shifted, ← value_ofShift]
  cases k <;> rfl

/-- A shift makes a byte and flags out of its operand and the carry alone. -/
theorem congr_of_shifts {op : ModifyOp} (hop : op.shifts = true) {s t : State}
    (hcarry : s.status.carry = t.status.carry) (v : UInt8) :
    op.value s v = op.value t v ∧ op.carryOut s v = op.carryOut t v := by
  cases op with
  | asl | rol | lsr | ror => simp [value, carryIn, carryOut, hcarry]
  | stx | ldx | dec | inc => nomatch hop

theorem target_ofShift (k : Shift) (mode : Mode) :
    (ofShift k).target mode = if mode = .accumulator then .a else .memory := by
  cases k <;> rfl

end ModifyOp

namespace Machine

/-- The operand of an instruction of the group: the accumulator, or the byte at its effective
address. -/
def modifiedByte (m : Machine) (mode : Mode) : UInt8 :=
  if mode = .accumulator then m.state.a else m.memory.get (UInt16.ofNat (m.operandAddress mode))

/-- The next step executes the operation `op` of the group with the mode `mode`. -/
structure Modifies (m : Machine) (op : ModifyOp) (mode : Mode) : Prop where
  free : m.state.serviceable = none
  group : m.memory.get m.state.pc % 4 = 2
  operation : ModifyOp.ofByte (m.memory.get m.state.pc) = op
  mode : ModifyOp.mode (m.memory.get m.state.pc) = some mode

/-- The result of the operation on `v` at its target; `a` is the effective address. -/
def modify (m : Machine) (op : ModifyOp) (mode : Mode) (v : UInt8) (a : UInt16) : Machine :=
  ⟨op.result mode m.state v,
    if op.target mode = .memory then m.memory.set a (op.value m.state v) else m.memory⟩

/-- Where the program goes on does not matter to the result. -/
theorem modify_advance (m : Machine) (op : ModifyOp) (mode : Mode) (v : UInt8) (a n : UInt16) :
    (m.onState (·.advance n)).modify op mode v a =
      (m.modify op mode v a).onState (·.advance n) := by
  cases op <;> rfl

theorem execute_ofShift (m : Machine) (k : Shift) (mode : Mode) (a : UInt16) :
    m.execute (ModifyOp.ofShift k).operation mode a =
      m.modify (.ofShift k) mode (if mode = .accumulator then m.state.a else m.memory.get a) a := by
  have hop : (ModifyOp.ofShift k).operation = .shift k := by cases k <;> rfl
  simp only [hop, execute, modify, ModifyOp.result, ModifyOp.target_ofShift,
    ModifyOp.value_ofShift, ModifyOp.status_ofShift]
  by_cases hmode : mode = .accumulator <;>
    simp [hmode, shiftA, shiftAt, State.shifted, State.withResult]

/-- The effect of an operation. One that is no shift would work on memory in the accumulator mode
too, which the table never gives it. -/
theorem execute_modifyOp {op : ModifyOp} {mode : Mode}
    (hform : mode = .accumulator → op.shifts = true) (m : Machine) (a : UInt16) :
    m.execute op.operation mode a =
      m.modify op mode (if mode = .accumulator then m.state.a else m.memory.get a) a := by
  cases op with
  | asl => exact m.execute_ofShift .asl mode a
  | rol => exact m.execute_ofShift .rol mode a
  | lsr => exact m.execute_ofShift .lsr mode a
  | ror => exact m.execute_ofShift .ror mode a
  | stx | ldx =>
    have hmode : mode ≠ .accumulator := fun h => nomatch hform h
    simp only [modify, ModifyOp.result, ModifyOp.target, hmode, reduceCtorEq, ↓reduceIte]
    rfl
  | dec | inc =>
    have hmode : mode ≠ .accumulator := fun h => nomatch hform h
    simp only [modify, ModifyOp.result, ModifyOp.target, ModifyOp.status, ModifyOp.value_inc,
      ModifyOp.value_dec, hmode, reduceCtorEq, ↓reduceIte]
    rfl

/-- A step of the group computes what the bits of the opcode say. -/
theorem step_modifyOp {m : Machine} {op : ModifyOp} {mode : Mode} (h : m.Modifies op mode) :
    m.step =
      (m.modify op mode (m.modifiedByte mode) (UInt16.ofNat (m.operandAddress mode))).onState
        (·.advance (UInt16.ofNat (1 + mode.operandLength))) := by
  obtain ⟨hfree, hgroup, rfl, hmode⟩ := h
  obtain ⟨hop, hrow⟩ := ModifyOp.decode_eq hgroup hmode
  have hform : mode = .accumulator → (ModifyOp.ofByte (m.memory.get m.state.pc)).shifts = true := by
    rintro rfl
    exact ModifyOp.shifts_of_mode hmode
  rw [step_of_row hfree hop hrow (ModifyOp.operation_ne_brk _), execute_modifyOp hform,
    modify_advance, address_resolve]
  rfl

end Machine

namespace Cpu

section Modifies

variable {c : Cpu} {op : ModifyOp} {mode : Mode} (h : c.machine.Modifies op mode)
include h

theorem state_of_modifies :
    c.step.cpu.state =
      (op.result mode c.state (c.machine.modifiedByte mode)).advance
        (UInt16.ofNat (1 + mode.operandLength)) := by
  rw [state, machine_step, Machine.step_modifyOp h]
  rfl

theorem get_of_modifies (b : UInt16) :
    c.step.cpu.memory.get b =
      if op.target mode = .memory ∧
          Memory.cell (UInt16.ofNat (c.machine.operandAddress mode)) = Memory.cell b then
        op.value c.state (c.machine.modifiedByte mode)
      else c.memory.get b := by
  rw [memory, machine_step, Machine.step_modifyOp h]
  exact Memory.get_ite_set _ _ _ _ _

/-- A shift that finds in memory what another one finds in the accumulator comes out alike. -/
theorem alike_of_modifies {d : Cpu} (hd : d.machine.Modifies op .accumulator)
    (hform : mode ≠ .accumulator)
    (hbyte : c.memory.get (UInt16.ofNat (c.machine.operandAddress mode)) = d.state.a)
    (hcarry : c.state.status.carry = d.state.status.carry) :
    c.step.cpu.memory.get (UInt16.ofNat (c.machine.operandAddress mode)) = d.step.cpu.state.a ∧
      c.step.cpu.state.status.carry = d.step.cpu.state.status.carry ∧
      c.step.cpu.state.status.zero = d.step.cpu.state.status.zero ∧
      c.step.cpu.state.status.negative = d.step.cpu.state.status.negative := by
  have hshifts : op.shifts = true := hd.operation ▸ ModifyOp.shifts_of_mode hd.mode
  have hldx : op ≠ .ldx := fun hop => nomatch hop ▸ hshifts
  have hstx : op ≠ .stx := fun hop => nomatch hop ▸ hshifts
  have hmemory : c.machine.modifiedByte mode = d.state.a := (if_neg hform).trans hbyte
  have hregister : d.machine.modifiedByte .accumulator = d.state.a := if_pos rfl
  obtain ⟨hvalue, hout⟩ := ModifyOp.congr_of_shifts hshifts hcarry d.state.a
  rw [get_of_modifies h, state_of_modifies h, state_of_modifies hd, hmemory, hregister]
  simp [ModifyOp.result, ModifyOp.target, ModifyOp.status, Status.withZN, State.advance, hldx,
    hstx, hform, hvalue, hout]

end Modifies

/-- The read-modify-write group decodes and computes as its bits say. Where no interrupt comes
first, an opcode of the group leaves the registers that `ModifyOp.result` gives for its operand,
with the program counter past the instruction. A result with its target in memory goes to the cell
of the effective address, and no other byte changes. An accumulator form leaves in A and in the
flags what the same operation leaves in memory and in the flags when it finds the same byte there
and the same carry. -/
theorem modify_group_step {c : Cpu} {op : ModifyOp} {mode : Mode}
    (h : c.machine.Modifies op mode) :
    let a := UInt16.ofNat (c.machine.operandAddress mode)
    let v := c.machine.modifiedByte mode
    c.step.cpu.state =
        (op.result mode c.state v).advance (UInt16.ofNat (1 + mode.operandLength)) ∧
      (∀ b, c.step.cpu.memory.get b =
        if op.target mode = .memory ∧ Memory.cell a = Memory.cell b then op.value c.state v
        else c.memory.get b) ∧
      (mode = .accumulator → ∀ (d : Cpu) (form : Mode), d.machine.Modifies op form →
        form ≠ .accumulator →
        let b := UInt16.ofNat (d.machine.operandAddress form)
        d.memory.get b = c.state.a → d.state.status.carry = c.state.status.carry →
        d.step.cpu.memory.get b = c.step.cpu.state.a ∧
          d.step.cpu.state.status.carry = c.step.cpu.state.status.carry ∧
          d.step.cpu.state.status.zero = c.step.cpu.state.status.zero ∧
          d.step.cpu.state.status.negative = c.step.cpu.state.status.negative) := by
  refine ⟨state_of_modifies h, get_of_modifies h, ?_⟩
  rintro rfl d form hd hform b hbyte hcarry
  exact alike_of_modifies hd h hform hbyte hcarry

/-- ROR A with the carry set. -/
def rotating : Cpu :=
  (zero.onMemory (·.set 0 0x6A)).onState fun s =>
    { s with a := 0x08, status := { s.status with carry := true } }

/-- ROR $0802 with the carry set; the address is a mirror of the high byte of the operand. -/
def rotatingItself : Cpu :=
  (zero.onMemory (·.load 0 [0x6E, 0x02, 0x08])).onState fun s =>
    { s with status := { s.status with carry := true } }

/-- LSR A that shifts the last bit out. -/
def halving : Cpu := (zero.onMemory (·.set 0 0x4A)).onState ({ · with a := 0x01 })

theorem modify_group_step_rotating :
    rotating.machine.Modifies .ror .accumulator ∧ rotatingItself.machine.Modifies .ror .absolute ∧
      halving.machine.Modifies .lsr .accumulator ∧
      rotating.step.cpu.state.a = 0x84 ∧ rotating.step.cpu.memory.get 0 = 0x6A ∧
      rotating.step.cpu.state.status = { Status.clear with negative := true } ∧
      halving.step.cpu.state.status = { Status.clear with carry := true, zero := true } ∧
      rotatingItself.step.cpu.memory.get 0x0002 = 0x84 ∧
      rotatingItself.step.cpu.memory.get 0x0802 = rotating.step.cpu.state.a := by
  have hregister : rotating.machine.Modifies .ror .accumulator := by
    constructor <;> decide +kernel
  have hmemory : rotatingItself.machine.Modifies .ror .absolute := by
    constructor <;> decide +kernel
  have hhalving : halving.machine.Modifies .lsr .accumulator := by
    constructor <;> decide +kernel
  have haddress : UInt16.ofNat (rotatingItself.machine.operandAddress .absolute) = 0x0802 := by
    decide +kernel
  obtain ⟨hstate, hget, halike⟩ := modify_group_step hregister
  obtain ⟨-, hitself, -⟩ := modify_group_step hmemory
  obtain ⟨hhalved, -⟩ := modify_group_step hhalving
  obtain ⟨hbyte, -⟩ := halike rfl rotatingItself .absolute hmemory (by decide)
    (by decide +kernel) (by decide +kernel)
  refine ⟨hregister, hmemory, hhalving, ?_, ?_, ?_, ?_, ?_, haddress ▸ hbyte⟩
  · rw [hstate]
    decide +kernel
  · rw [hget]
    decide +kernel
  · rw [hstate]
    decide +kernel
  · rw [hhalved]
    decide +kernel
  · rw [hitself]
    decide +kernel

end Cpu

end Mos6502
