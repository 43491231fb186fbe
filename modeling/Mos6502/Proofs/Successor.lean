import Mos6502.Proofs.Traps

/-!
# The next instruction

Where the program goes on after a step, as a number read off the registers and the bytes of memory
before the step. `Flow.ofByte` sorts the opcode bytes by their bits alone; the table sorts them in
the same way. Nothing that a step pushes is read again by it, so a vector or a target in the way of
the stack counts as it was.
-/

namespace Mos6502

/-- How an instruction decides which one comes next. -/
inductive Flow where
  | straight
  | jump
  | jumpIndirect
  | ret
  | rti
  | brk
  /-- A jump on condition. -/
  | branch
  deriving DecidableEq, Repr

namespace Flow

/-- The flow of an opcode byte. -/
def ofByte (v : UInt8) : Flow :=
  if v &&& 0x1F = 0x10 then .branch
  else
    match v with
    | 0x00 => .brk
    | 0x20 | 0x4C => .jump
    | 0x6C => .jumpIndirect
    | 0x60 => .ret
    | 0x40 => .rti
    | _ => .straight

/-- The branch is taken: the flag that the two high bits of its opcode select has the value of
bit 5. -/
def taken (p : Status) (v : UInt8) : Bool :=
  let flag :=
    match v >>> 6 with
    | 0 => p.negative
    | 1 => p.overflow
    | 2 => p.carry
    | _ => p.zero
  flag == v.toNat.testBit 5

end Flow

def Branch.opcode : Branch → UInt8
  | bpl => 0x10
  | bmi => 0x30
  | bvc => 0x50
  | bvs => 0x70
  | bcc => 0x90
  | bcs => 0xB0
  | bne => 0xD0
  | beq => 0xF0

namespace Opcode

/-- The flow of a table row. -/
def flow (o : Opcode) : Flow :=
  match o.operation with
  | .jump => if o.mode = .indirect then .jumpIndirect else .jump
  | .call => .jump
  | .ret => .ret
  | .rti => .rti
  | .brk => .brk
  | .branch _ => .branch
  | _ => .straight

/-- The bits of an opcode byte tell its flow. -/
theorem flow_decode (v : UInt8) : (decode v).flow = .ofByte v :=
  apply_decode (f := flow) (by decide +kernel) v

/-- The opcode of a row, if it is a branch. -/
def branchOpcode (o : Opcode) : Option UInt8 :=
  match o.operation with
  | .branch b => some b.opcode
  | _ => none

theorem branchOpcode_decode (v : UInt8) :
    (decode v).branchOpcode = if v &&& 0x1F = 0x10 then some v else none :=
  apply_decode (f := branchOpcode) (g := fun v => if v &&& 0x1F = 0x10 then some v else none)
    (by decide +kernel) v

theorem eq_opcode_of_branch {v : UInt8} {b : Branch} (h : (decode v).operation = .branch b) :
    v = b.opcode := by
  have hrow := branchOpcode_decode v
  rw [branchOpcode, h] at hrow
  by_cases hbits : v &&& 0x1F = 0x10
  · rw [if_pos hbits] at hrow
    exact (Option.some.inj hrow).symm
  · rw [if_neg hbits] at hrow
    nomatch hrow

/-- The bits of a branch opcode tell when it is taken. -/
theorem taken_of_branch {v : UInt8} {b : Branch} (h : (decode v).operation = .branch b)
    (p : Status) : b.taken p = Flow.taken p v := by
  rw [eq_opcode_of_branch h]
  cases b <;> rfl

theorem mode_of_jump {v : UInt8} (h : (decode v).operation = .jump) :
    (decode v).mode = .absolute ∨ (decode v).mode = .indirect :=
  forall_decode (P := fun o => o.operation = .jump → o.mode = .absolute ∨ o.mode = .indirect)
    (by decide +kernel) v h

theorem mode_of_call {v : UInt8} (h : (decode v).operation = .call) : (decode v).mode = .absolute :=
  forall_decode (P := fun o => o.operation = .call → o.mode = .absolute) (by decide +kernel) v h

end Opcode

namespace Memory

/-- The word that is pulled with the stack pointer at `sp`; the pointer wraps in its page. -/
def stackWord (m : Memory) (sp : Nat) : Nat :=
  m.wordAt (0x100 + (sp + 1) % 256) (0x100 + (sp + 2) % 256)

theorem stackWord_mod (m : Memory) (sp : Nat) : m.stackWord (sp % 256) = m.stackWord sp := by
  rw [stackWord, stackWord, Nat.mod_add_mod, Nat.mod_add_mod]

end Memory

namespace Machine

/-- Where the program goes on after the next step. -/
def successor (m : Machine) : Nat :=
  let p := m.state.pc.toNat
  let opcode := m.memory.get m.state.pc
  let operand := m.memory.wordAt (p + 1) (p + 2)
  match m.state.serviceable with
  | some i => (Trap.hardware i).target m.memory
  | none =>
    match Flow.ofByte opcode with
    | .straight => (p + 1 + (Opcode.decode opcode).mode.operandLength) % 65536
    | .jump => operand
    | .jumpIndirect => m.memory.wordAt operand (Memory.pageNext operand)
    | .ret => (m.memory.stackWord m.state.sp.toNat + 1) % 65536
    | .rti => m.memory.stackWord (m.state.sp.toNat + 1)
    | .brk => Trap.software.target m.memory
    | .branch =>
      if Flow.taken m.state.status opcode then
        ((p + 2 + signed (m.memory.get (UInt16.ofNat (p + 1)))) % 65536).toNat
      else (p + 2) % 65536

theorem toNat_popWord (m : Machine) :
    m.popWord.1.toNat = m.memory.stackWord m.state.sp.toNat := by
  have hlow := stackAddress_add m.state.sp 1
  have hhigh := stackAddress_add m.state.sp 2
  rw [popWord_value, toNat_word, Memory.stackWord, Memory.wordAt, Memory.byteAt, Memory.byteAt,
    ← hlow, ← hhigh, Nat.add_comm, Nat.mul_comm]
  rfl

/-- What each operation makes of the program counter. -/
theorem pc_execute (m : Machine) (op : Operation) (mode : Mode) (a : UInt16) :
    (m.execute op mode a).state.pc =
      match op with
      | .jump | .call => a
      | .ret => m.popWord.1 + 1
      | .rti => m.pop.2.popWord.1
      | .brk => m.memory.readWord irqVector
      | .branch b => if b.taken m.state.status then a else m.state.pc
      | _ => m.state.pc := by
  cases op with
  | load r => cases r <;> rfl
  | transfer t => cases t <;> rfl
  | logic l => cases l <;> rfl
  | increment i => cases i <;> rfl
  | decrement i => cases i <;> rfl
  | shift k => rw [execute]; split <;> rfl
  | branch b => simp only [execute]; split <;> rfl
  | brk => exact pc_enter m .software true
  | _ => rfl

/-- An instruction goes on where the registers and the memory before it say. -/
theorem pc_step_of_not_serviceable {m : Machine} (hs : m.state.serviceable = none) :
    m.step.state.pc.toNat = m.successor := by
  have hop : m.upcoming = some m.row.operation := upcoming_eq_some_iff.mpr ⟨hs, rfl⟩
  have hflow : m.row.flow = .ofByte (m.memory.get m.state.pc) := Opcode.flow_decode _
  rw [step_of_upcoming hop, pc_execute, successor, hs]
  simp only
  rw [← hflow, Opcode.flow]
  cases hrow : m.row.operation with
  | jump =>
    obtain hmode | hmode : m.row.mode = .absolute ∨ m.row.mode = .indirect :=
      Opcode.mode_of_jump hrow
    · rw [hmode]
      exact m.toNat_resolve .absolute
    · rw [hmode]
      exact m.toNat_resolve .indirect
  | call =>
    have hmode : m.row.mode = .absolute := Opcode.mode_of_call hrow
    rw [hmode]
    exact m.toNat_resolve .absolute
  | ret =>
    simp only [UInt16.toNat_add, toNat_popWord, UInt16.reduceToNat]
    rfl
  | rti =>
    rw [toNat_popWord, pop_memory, pop_sp, UInt8.toNat_add]
    exact m.memory.stackWord_mod (m.state.sp.toNat + 1)
  | brk => exact Trap.toNat_readWord_vector m.memory .software
  | branch b =>
    obtain ⟨hmode, hlength⟩ : m.row.mode = .relative ∧ m.row.length = 2 :=
      Opcode.shape_of_branch hrow
    have htaken : b.taken m.state.status = Flow.taken m.state.status _ :=
      Opcode.taken_of_branch hrow _
    simp only [onState, State.advance, htaken, hmode, hlength, apply_ite UInt16.toNat]
    rw [m.toNat_resolve .relative, UInt16.toNat_add]
    rfl
  | _ =>
    have hlength : m.row.length = 1 + m.row.mode.operandLength :=
      Opcode.length_of_ne_brk (by rw [← row, hrow]; simp)
    simp only [onState, State.advance, hlength, UInt16.toNat_add, UInt16.toNat_ofNat',
      Nat.add_mod_mod, ← Nat.add_assoc]
    rfl

end Machine

namespace Cpu

/-- After every step the program counter is where the architecture puts it. -/
theorem pc_step_eq_successor (c : Cpu) : c.step.cpu.state.pc.toNat = c.machine.successor := by
  rw [state, machine_step]
  cases hs : c.machine.state.serviceable with
  | some i =>
    rw [Machine.step_of_serviceable hs, Machine.successor, hs]
    exact Machine.toNat_pc_enter _ (.hardware i) false
  | none => exact Machine.pc_step_of_not_serviceable hs

/-- JMP ($30FF), whose pointer ends at the start of its page. -/
def jumping : Cpu :=
  zero.onMemory fun m =>
    ((m.load 0 [0x6C, 0xFF, 0x30]).load 0x30FF [0x34, 0x56]).set 0x3000 0x12

/-- BMI below the start of the address space. -/
def branching : Cpu :=
  (zero.onMemory (·.load 0 [0x30, 0xFB])).onState fun s =>
    { s with status := { s.status with negative := true } }

/-- BRK on the stack, where its own pushes fall. -/
def breaking : Cpu :=
  (zero.onMemory fun m => (m.set 0x01FD 0x00).load 0xFFFE [0x78, 0x56]).onState fun s =>
    { s with pc := 0x01FD, sp := 0xFE }

/-- RTS that pulls a word around the end of page one. -/
def pulling : Cpu :=
  (zero.onMemory fun m => ((m.set 0x0300 0x60).set 0x01FF 0xBB).set 0x0100 0x0A).onState fun s =>
    { s with pc := 0x0300, sp := 0xFE }

theorem pc_step_eq_successor_around :
    jumping.step.cpu.state.pc.toNat = 0x1234 ∧ branching.step.cpu.state.pc.toNat = 0xFFFD ∧
      breaking.step.cpu.state.pc.toNat = 0x5678 ∧
      pulling.step.cpu.state.pc.toNat = 0x0ABC := by
  simp only [pc_step_eq_successor]
  decide +kernel

end Cpu

end Mos6502
