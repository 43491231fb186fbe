import Mos6502.Proofs.ModifyGroup

/-!
# The register group

The opcodes that are neither jumps nor in one of the two regular groups: they work on Y and the
comparisons with X and Y, copy and count registers, assign single flags, test bits, and move bytes
to and from the stack. No bit fields select among them, so `RegisterOp.ofByte` lists them.
-/

namespace Mos6502

/-- The byte registers. -/
inductive Slot where
  | a | x | y | sp
  deriving DecidableEq, Repr

namespace Slot

def get (s : State) : Slot → UInt8
  | a => s.a
  | x => s.x
  | y => s.y
  | sp => s.sp

def put (s : State) (v : UInt8) : Slot → State
  | a => { s with a := v }
  | x => { s with x := v }
  | y => { s with y := v }
  | sp => { s with sp := v }

/-- Put a byte into a register and let it decide zero and negative. -/
def load (s : State) (v : UInt8) (t : Slot) : State :=
  { t.put s v with status := s.status.withZN v }

end Slot

inductive RegisterOp where
  | bit
  | ldy
  | sty
  /-- Compare a register with the operand. -/
  | compare (t : Slot)
  | copy (source target : Slot)
  /-- Add `n` to a register. -/
  | count (t : Slot) (n : Int)
  | carry (value : Bool)
  | irqDisable (value : Bool)
  | decimal (value : Bool)
  | overflow (value : Bool)
  | nop
  | pha
  | php
  | pla
  | plp
  | sbc
  deriving DecidableEq, Repr

namespace RegisterOp

/-- The opcodes of the group, each with its operation and mode. -/
def rows : List (UInt8 × RegisterOp × Mode) := [
  (0x24, bit, .zeroPage),
  (0x2C, bit, .absolute),
  (0xA0, ldy, .immediate),
  (0xA4, ldy, .zeroPage),
  (0xAC, ldy, .absolute),
  (0xB4, ldy, .zeroPageX),
  (0xBC, ldy, .absoluteX),
  (0x84, sty, .zeroPage),
  (0x8C, sty, .absolute),
  (0x94, sty, .zeroPageX),
  (0xC0, compare .y, .immediate),
  (0xC4, compare .y, .zeroPage),
  (0xCC, compare .y, .absolute),
  (0xE0, compare .x, .immediate),
  (0xE4, compare .x, .zeroPage),
  (0xEC, compare .x, .absolute),
  (0xAA, copy .a .x, .implied),
  (0xA8, copy .a .y, .implied),
  (0x8A, copy .x .a, .implied),
  (0x98, copy .y .a, .implied),
  (0xBA, copy .sp .x, .implied),
  (0x9A, copy .x .sp, .implied),
  (0xE8, count .x 1, .implied),
  (0xC8, count .y 1, .implied),
  (0xCA, count .x (-1), .implied),
  (0x88, count .y (-1), .implied),
  (0x18, carry false, .implied),
  (0x38, carry true, .implied),
  (0x58, irqDisable false, .implied),
  (0x78, irqDisable true, .implied),
  (0xB8, overflow false, .implied),
  (0xD8, decimal false, .implied),
  (0xF8, decimal true, .implied),
  (0xEA, nop, .implied),
  (0x1A, nop, .implied),
  (0x3A, nop, .implied),
  (0x5A, nop, .implied),
  (0x7A, nop, .implied),
  (0xDA, nop, .implied),
  (0xFA, nop, .implied),
  (0x48, pha, .implied),
  (0x08, php, .implied),
  (0x68, pla, .implied),
  (0x28, plp, .implied),
  (0xEB, sbc, .immediate)]

/-- The byte that an operation works on: the one at the address `a`, unless it is pulled from page
one. -/
def operand (m : Machine) (a : UInt16) : RegisterOp → UInt8
  | pla | plp => m.memory.get (UInt16.ofNat (0x100 + (m.state.sp.toNat + 1) % 256))
  | _ => m.memory.get a

/-- The registers after the operation on the byte `v`. -/
def result (s : State) (v : UInt8) : RegisterOp → State
  | bit =>
    { s with status := { s.status with
        zero := decide (s.a &&& v = 0)
        negative := v.toNat.testBit 7
        overflow := v.toNat.testBit 6 } }
  | ldy => Slot.y.load s v
  | sty | nop => s
  | compare t =>
    { s with status := { s.status with
        carry := decide (v.toNat ≤ (t.get s).toNat)
        zero := decide (t.get s = v)
        negative := (UInt8.ofInt ((t.get s).toNat - v.toNat)).toNat.testBit 7 } }
  | copy source target =>
    if target = .sp then target.put s (source.get s) else target.load s (source.get s)
  | count t n => t.load s (UInt8.ofInt ((t.get s).toNat + n))
  | carry value => { s with status := { s.status with carry := value } }
  | irqDisable value => { s with status := { s.status with irqDisable := value } }
  | decimal value => { s with status := { s.status with decimal := value } }
  | overflow value => { s with status := { s.status with overflow := value } }
  | pha | php => { s with sp := s.sp - 1 }
  | pla => Slot.a.load { s with sp := s.sp + 1 } v
  | plp => { s with sp := s.sp + 1, status := .ofByte ((v &&& 0xEF) ||| 0x20) }
  | sbc => AccumulatorOp.sbc.result s v

/-- The address and the byte of a store, if the operation makes one. -/
def store (s : State) (a : UInt16) : RegisterOp → Option (UInt16 × UInt8)
  | sty => some (a, s.y)
  | pha => some (UInt16.ofNat (0x100 + s.sp.toNat), s.a)
  | php => some (UInt16.ofNat (0x100 + s.sp.toNat), s.status.toByte ||| 0x10)
  | _ => none

end RegisterOp

/-- The registers between which a transfer copies. -/
def Transfer.ends : Transfer → Slot × Slot
  | tax => (.a, .x)
  | tay => (.a, .y)
  | txa => (.x, .a)
  | tya => (.y, .a)
  | tsx => (.sp, .x)
  | txs => (.x, .sp)

def Index.slot : Index → Slot
  | x => .x
  | y => .y

/-- The assignment that a flag instruction is. -/
def FlagChange.registerOp : FlagChange → RegisterOp
  | clc => .carry false
  | sec => .carry true
  | cli => .irqDisable false
  | sei => .irqDisable true
  | clv => .overflow false
  | cld => .decimal false
  | sed => .decimal true

/-- The place of an operation in the group. -/
def Operation.registerOp : Operation → Option RegisterOp
  | bit => some .bit
  | load .y => some .ldy
  | store .y => some .sty
  | compare .x => some (.compare .x)
  | compare .y => some (.compare .y)
  | transfer t => some (.copy t.ends.1 t.ends.2)
  | increment i => some (.count i.slot 1)
  | decrement i => some (.count i.slot (-1))
  | flag c => some c.registerOp
  | nop => some .nop
  | pha => some .pha
  | php => some .php
  | pla => some .pla
  | plp => some .plp
  | sbc => some .sbc
  | _ => none

namespace RegisterOp

/-- The opcode table agrees with the list. -/
theorem decode_eq {v : UInt8} {r : RegisterOp} {mode : Mode} (h : (v, r, mode) ∈ rows) :
    (Opcode.decode v).operation.registerOp = some r ∧ (Opcode.decode v).mode = mode := by
  have hall : ∀ p ∈ rows, (Opcode.decode p.1).operation.registerOp = some p.2.1 ∧
      (Opcode.decode p.1).mode = p.2.2 := by
    decide +kernel
  exact hall _ h

/-- The opcode is a jump or lies in one of the regular groups. -/
def Elsewhere (v : UInt8) : Prop :=
  Flow.ofByte v ≠ .straight ∨ (v % 4 = 1 ∧ v ≠ 0x89) ∨ (v % 4 = 2 ∧ (ModifyOp.mode v).isSome)

instance (v : UInt8) : Decidable (Elsewhere v) := inferInstanceAs (Decidable (_ ∨ _))

/-- Every opcode that does something is elsewhere or in the list. -/
theorem exists_row {v : UInt8} (heffect : (Opcode.decode v).unimplemented = false)
    (helsewhere : ¬ Elsewhere v) : ∃ r mode, (v, r, mode) ∈ rows := by
  have hskipped : (Opcode.decode v).unimplemented =
      !decide (Elsewhere v ∨ v ∈ rows.map Prod.fst) :=
    Opcode.apply_decode (g := fun v => !decide (Elsewhere v ∨ v ∈ rows.map Prod.fst))
      (by decide +kernel) v
  rw [heffect, eq_comm, Bool.not_eq_false', decide_eq_true_eq] at hskipped
  obtain ⟨⟨w, r, mode⟩, hrow, rfl⟩ := List.mem_map.mp (hskipped.resolve_left helsewhere)
  exact ⟨r, mode, hrow⟩

theorem operation_ne_brk {op : Operation} {r : RegisterOp} (h : op.registerOp = some r) :
    op ≠ .brk := by
  rintro rfl
  nomatch h

/-- Where the program goes on does not matter to the result. -/
theorem result_advance (r : RegisterOp) (s : State) (v : UInt8) (n : UInt16) :
    r.result (s.advance n) v = (r.result s v).advance n := by
  cases r with
  | compare t => cases t <;> rfl
  | copy source target => cases source <;> cases target <;> rfl
  | count t n => cases t <;> rfl
  | _ => rfl

end RegisterOp

/-- Counting up is the addition of 1, and counting down that of -1. -/
theorem State.increment_eq (s : State) (i : Index) (v : UInt8) :
    s.increment i = (RegisterOp.count i.slot 1).result s v := by
  simp only [RegisterOp.result, ofInt_toNat_add]
  cases i <;> rfl

theorem State.decrement_eq (s : State) (i : Index) (v : UInt8) :
    s.decrement i = (RegisterOp.count i.slot (-1)).result s v := by
  have hminus : ∀ w : UInt8, w - 1 = w + UInt8.ofInt (-1) := fun w => UInt8.sub_eq_add_neg w 1
  simp only [RegisterOp.result, ofInt_toNat_add, ← hminus]
  cases i <;> rfl

namespace Machine

/-- The effect of an operation of the group. -/
theorem execute_registerOp {op : Operation} {r : RegisterOp} (h : op.registerOp = some r)
    (m : Machine) (mode : Mode) (a : UInt16) :
    m.execute op mode a =
      ⟨r.result m.state (r.operand m a),
        (r.store m.state a).elim m.memory fun w => m.memory.set w.1 w.2⟩ := by
  have hpush := stackAddress_eq m.state.sp
  have hpull := stackAddress_add m.state.sp 1
  cases op with
  | load t =>
    cases t <;> cases h
    rfl
  | store t =>
    cases t <;> cases h
    rfl
  | compare t =>
    cases t <;> cases h
    · exact congrArg (Machine.mk · m.memory) (m.state.compare_eq _ m.state.x)
    · exact congrArg (Machine.mk · m.memory) (m.state.compare_eq _ m.state.y)
  | transfer t => cases t <;> cases h <;> rfl
  | increment i =>
    cases h
    exact congrArg (Machine.mk · m.memory) (m.state.increment_eq i _)
  | decrement i =>
    cases h
    exact congrArg (Machine.mk · m.memory) (m.state.decrement_eq i _)
  | pha =>
    cases h
    rw [RegisterOp.store, ← hpush]
    rfl
  | php =>
    cases h
    rw [execute, php, Status.pushed_true, RegisterOp.store, ← hpush]
    rfl
  | pla =>
    cases h
    rw [RegisterOp.operand, ← hpull]
    rfl
  | plp =>
    cases h
    rw [RegisterOp.operand, ← hpull]
    simp only [RegisterOp.result, ← Status.toByte_pulled, Status.ofByte_toByte]
    rfl
  | sbc =>
    cases h
    exact congrArg (Machine.mk · m.memory) (m.state.sbc_eq _)
  | flag f => cases f <;> cases h <;> rfl
  | bit | nop =>
    cases h
    rfl
  | _ => cases h

/-- A step of the group does what its row of the list says. -/
theorem step_registerOp {m : Machine} {r : RegisterOp} {mode : Mode}
    (hfree : m.state.serviceable = none)
    (hrow : (m.memory.get m.state.pc, r, mode) ∈ RegisterOp.rows) :
    let a := UInt16.ofNat (m.operandAddress mode)
    m.step =
      ⟨(r.result m.state (r.operand m a)).advance (UInt16.ofNat (1 + mode.operandLength)),
        (r.store m.state a).elim m.memory fun w => m.memory.set w.1 w.2⟩ := by
  obtain ⟨hop, hmode⟩ : m.row.operation.registerOp = some r ∧ m.row.mode = mode :=
    RegisterOp.decode_eq hrow
  intro a
  rw [step_of_row hfree rfl hmode (RegisterOp.operation_ne_brk hop), execute_registerOp hop,
    address_resolve]
  simp only [onState, RegisterOp.result_advance]
  cases r <;> rfl

end Machine

namespace Cpu

/-- The instructions that are neither jumps nor in one of the regular groups do exactly what the
list says. Where no interrupt comes first, the registers become what `RegisterOp.result` gives for
the operand, with the program counter past the instruction; a byte that the operation stores goes to
its cell, and no other byte changes. The list has every opcode that does something, goes straight on
and lies in neither of the regular groups. -/
theorem register_group_step (c : Cpu) (hfree : c.state.serviceable = none) :
    (∀ (r : RegisterOp) (mode : Mode),
      (c.memory.get c.state.pc, r, mode) ∈ RegisterOp.rows →
      let a := UInt16.ofNat (c.machine.operandAddress mode)
      c.step.cpu.state =
          (r.result c.state (r.operand c.machine a)).advance
            (UInt16.ofNat (1 + mode.operandLength)) ∧
        ∀ b, c.step.cpu.memory.get b =
          (r.store c.state a).elim (c.memory.get b) fun w =>
            if Memory.cell w.1 = Memory.cell b then w.2 else c.memory.get b) ∧
    let v := c.memory.get c.state.pc
    ((Opcode.decode v).unimplemented = false → ¬ RegisterOp.Elsewhere v →
      ∃ r mode, (v, r, mode) ∈ RegisterOp.rows) := by
  refine ⟨?_, RegisterOp.exists_row⟩
  intro r mode hrow a
  have hstep := Machine.step_registerOp hfree hrow
  constructor
  · rw [state, machine_step, hstep]
  · intro b
    rw [memory, machine_step, hstep]
    cases r.store c.state a with
    | none => rfl
    | some w => exact Memory.get_set _ _ _ _

/-- CPY #$40, where Y holds the byte and X does not. -/
def comparingY : Cpu :=
  (zero.onMemory (·.load 0 [0xC0, 0x40])).onState fun s => { s with x := 0x41, y := 0x40 }

/-- PHP with the stack pointer at the bottom of its page. -/
def pushingStatus : Cpu :=
  (zero.onMemory (·.set 0 0x08)).onState fun s =>
    { s with status := { s.status with carry := true } }

/-- SED. -/
def settingDecimal : Cpu := zero.onMemory (·.set 0 0xF8)

/-- TSX with a stack pointer that is negative as a byte. -/
def copyingPointer : Cpu := (zero.onMemory (·.set 0 0xBA)).onState ({ · with sp := 0xFD })

theorem register_group_step_comparing :
    comparingY.state.serviceable = none ∧ pushingStatus.state.serviceable = none ∧
      settingDecimal.state.serviceable = none ∧ copyingPointer.state.serviceable = none ∧
      comparingY.step.cpu.state.status = { Status.clear with carry := true, zero := true } ∧
      pushingStatus.step.cpu.state.sp = 0xFF ∧
      pushingStatus.step.cpu.memory.get 0x0100 = 0x11 ∧
      settingDecimal.step.cpu.state.status = { Status.clear with decimal := true } ∧
      copyingPointer.step.cpu.state.x = 0xFD ∧
      copyingPointer.step.cpu.state.status = { Status.clear with negative := true } := by
  have hcompare : comparingY.state.serviceable = none := by decide +kernel
  have hpush : pushingStatus.state.serviceable = none := by decide +kernel
  have hset : settingDecimal.state.serviceable = none := by decide +kernel
  have hcopy : copyingPointer.state.serviceable = none := by decide +kernel
  obtain ⟨hstate, -⟩ := (register_group_step comparingY hcompare).1 (.compare .y) .immediate
    (by decide +kernel)
  obtain ⟨hpushed, hmemory⟩ := (register_group_step pushingStatus hpush).1 .php .implied
    (by decide +kernel)
  obtain ⟨hassigned, -⟩ := (register_group_step settingDecimal hset).1 (.decimal true) .implied
    (by decide +kernel)
  obtain ⟨hcopied, -⟩ := (register_group_step copyingPointer hcopy).1 (.copy .sp .x) .implied
    (by decide +kernel)
  refine ⟨hcompare, hpush, hset, hcopy, ?_, ?_, ?_, ?_, ?_, ?_⟩
  · rw [hstate]
    decide +kernel
  · rw [hpushed]
    decide +kernel
  · rw [hmemory]
    decide +kernel
  · rw [hassigned]
    decide +kernel
  · rw [hcopied]
    decide +kernel
  · rw [hcopied]
    decide +kernel

end Cpu

end Mos6502
