import Mos6502.Proofs.Addresses
import Mos6502.Proofs.Stack
import Mos6502.Proofs.Steps

/-!
# Entry and return

A handler is entered by a request that is answered or by the BRK instruction. Both leave the same
three bytes on the stack, and RTI takes them off again: whatever ran in between, an RTI that finds
those bytes under its stack pointer resumes what was interrupted.
-/

namespace Mos6502

open Machine (stackAddress)

/-- The ways into a handler. -/
inductive Trap where
  | hardware (i : Interrupt)
  | software
  deriving DecidableEq, Repr

namespace Trap

def vector : Trap → UInt16
  | hardware i => i.vector
  | software => irqVector

/-- Where a handler begins: at the word that the vector of its trap holds in `m`. -/
def target (m : Memory) : Trap → Nat
  | hardware .nmi => m.wordAt 0xFFFA 0xFFFB
  | hardware .irq | software => m.wordAt 0xFFFE 0xFFFF

/-- Where the interrupted program goes on; BRK is followed by a padding byte. -/
def returnAddress (pc : UInt16) : Trap → UInt16
  | hardware _ => pc
  | software => pc + 2

/-- What the trap pushes for the status byte `p`. -/
def pushedByte (p : UInt8) : Trap → UInt8
  | hardware _ => (p ||| 0x20) &&& 0xEF
  | software => p ||| 0x10

/-- The next step of the machine takes the trap. -/
def Takes (m : Machine) : Trap → Prop
  | hardware .nmi => m.state.pending = some .nmi
  | hardware .irq => m.state.pending = some .irq ∧ m.state.status.irqDisable = false
  | software => m.state.serviceable = none ∧ m.memory.get m.state.pc = 0x00

/-- Whether the pushed status is marked as the BRK instruction's. -/
def marked : Trap → Bool
  | hardware _ => false
  | software => true

theorem pushed_marked (p : Status) (e : Trap) : p.pushed e.marked = e.pushedByte p.toByte := by
  cases e with
  | hardware i => exact p.pushed_false
  | software => exact p.pushed_true

/-- Pulling what was pushed forgets how it came about. -/
theorem toByte_pulled_pushed (p : Status) (b : Bool) :
    (Status.pulled (p.pushed b)).toByte = (p.toByte &&& 0xEF) ||| 0x20 := by
  rw [← Status.toByte_pulled, Status.pulled_pushed, Status.pulled, Status.ofByte_toByte]

theorem toNat_readWord_vector (m : Memory) (e : Trap) :
    (m.readWord e.vector).toNat = e.target m := by
  have hnmi : (m.readWord 0xFFFA).toNat = m.wordAt 0xFFFA 0xFFFB := m.toNat_readWord 0xFFFA 0
  have hirq : (m.readWord 0xFFFE).toNat = m.wordAt 0xFFFE 0xFFFF := m.toNat_readWord 0xFFFE 0
  cases e with
  | hardware i =>
    cases i with
    | nmi => exact hnmi
    | irq => exact hirq
  | software => exact hirq

/-- A vector lies above RAM, with both its bytes. -/
theorem windowEnd_le_vector (e : Trap) :
    Memory.windowEnd ≤ e.vector.toNat ∧ Memory.windowEnd ≤ (e.vector + 1).toNat := by
  rcases e with (_ | _) | _ <;> decide

end Trap

namespace Machine

/-- A hardware trap answers the request that waits. -/
theorem serviceable_of_takes {m : Machine} {i : Interrupt} (h : (Trap.hardware i).Takes m) :
    m.state.serviceable = some i := by
  cases i with
  | nmi => exact State.serviceable_eq_some_iff.mpr ⟨h, by simp⟩
  | irq => exact State.serviceable_eq_some_iff.mpr ⟨h.1, fun _ => h.2⟩

/-- Every trap is one entry sequence, run from the return address. -/
theorem step_of_takes {m : Machine} {e : Trap} (h : e.Takes m) :
    m.step =
      (m.onState ({ · with pc := e.returnAddress m.state.pc })).enter e.vector e.marked := by
  cases e with
  | hardware i => exact step_of_serviceable (serviceable_of_takes h)
  | software =>
    have hop : m.upcoming = some .brk := upcoming_of_opcode h.1 h.2
    have hrow : m.row = Opcode.decode 0x00 := by rw [row, h.2]
    rw [step_of_upcoming hop, hrow]
    rfl

/-- An entry leaves the status on top of the program counter. -/
theorem stacked_enter (m : Machine) (vector : UInt16) (b : Bool) :
    (m.enter vector b).Stacked
      [m.state.status.pushed b, lowByte m.state.pc, highByte m.state.pc] := by
  have hempty : m.Stacked [] := trivial
  exact (hempty.pushWord (by decide) m.state.pc).push (by simp) (m.state.status.pushed b)

/-- The three pushes of an entry stay inside RAM. -/
theorem get_enter (m : Machine) (vector : UInt16) (b : Bool) {a : UInt16}
    (h : Memory.windowEnd ≤ a.toNat) : (m.enter vector b).memory.get a = m.memory.get a := by
  have hne := cell_ne_stackAddress h
  exact ((get_push_of_ne _ _ (hne _)).trans (get_push_of_ne _ _ (hne _))).trans
    (get_push_of_ne _ _ (hne _))

/-- An entry reads the vector after its pushes, which did not touch it. -/
theorem pc_enter (m : Machine) (e : Trap) (b : Bool) :
    (m.enter e.vector b).state.pc = m.memory.readWord e.vector := by
  obtain ⟨hlow, hhigh⟩ := e.windowEnd_le_vector
  change (m.enter e.vector b).memory.readWord e.vector = _
  rw [Memory.readWord, Memory.readWord, get_enter _ _ _ hlow, get_enter _ _ _ hhigh]

theorem toNat_pc_enter (m : Machine) (e : Trap) (b : Bool) :
    (m.enter e.vector b).state.pc.toNat = e.target m.memory := by
  rw [pc_enter, Trap.toNat_readWord_vector]

/-- RTI takes a status and a program counter off the stack. -/
theorem Stacked.rti {m : Machine} {p low high : UInt8} {bs : List UInt8}
    (h : m.Stacked (p :: low :: high :: bs)) :
    m.rti =
      ⟨{ m.state with
          status := .pulled p
          pc := word high low
          sp := m.state.sp + 1 + 1 + 1 }, m.memory⟩ := by
  have hp := h.pop_value
  have hword := h.pop.popWord_value
  rw [← hp, ← hword]
  rfl

/-- Three bytes on the stack, by their distance from where the pointer was before them. -/
theorem stacked_three_iff {m : Machine} {sp p low high : UInt8} (hsp : m.state.sp = sp - 3) :
    m.Stacked [p, low, high] ↔
      m.memory.get (stackAddress (sp - 2)) = p ∧ m.memory.get (stackAddress (sp - 1)) = low ∧
        m.memory.get (stackAddress (sp - 0)) = high := by
  have htwo : sp - 3 + 1 = sp - 2 := by grind
  have hone : sp - 2 + 1 = sp - 1 := by grind
  have hzero : sp - 1 + 1 = sp - 0 := by grind
  simp only [Stacked, hsp, Memory.holds_cons, Memory.holds_nil, htwo, hone, hzero, and_true]

/-- What a trap leaves on the stack. -/
theorem stacked_step_of_takes {m : Machine} {e : Trap} (h : e.Takes m) :
    m.step.Stacked [e.pushedByte m.state.status.toByte,
      lowByte (e.returnAddress m.state.pc), highByte (e.returnAddress m.state.pc)] := by
  rw [step_of_takes h, ← Trap.pushed_marked]
  exact stacked_enter _ e.vector e.marked

theorem sp_step_of_takes {m : Machine} {e : Trap} (h : e.Takes m) :
    m.step.state.sp = m.state.sp - 3 := by
  have hthree : m.step.state.sp = m.state.sp - 1 - 1 - 1 := by
    rw [step_of_takes h]
    rfl
  rw [hthree]
  grind

/-- RTI under the three bytes of a trap goes back to where the trap was taken. -/
theorem step_rti_of_stacked {m : Machine} {e : Trap} {p : Status} {pc : UInt16}
    (hop : m.upcoming = some .rti)
    (h : m.Stacked [e.pushedByte p.toByte, lowByte (e.returnAddress pc),
      highByte (e.returnAddress pc)]) :
    m.step =
      ⟨{ m.state with
          status := .pulled (p.pushed e.marked)
          pc := e.returnAddress pc
          sp := m.state.sp + 1 + 1 + 1 }, m.memory⟩ := by
  have hadvanced : (m.onState (·.advance (UInt16.ofNat m.row.length))).Stacked _ := h
  rw [step_of_upcoming hop, Trap.pushed_marked]
  exact hadvanced.rti.trans (by rw [word_highByte_lowByte]; rfl)

end Machine

namespace Cpu

/-- RTI undoes every trap. Let `s` be about to take the trap `e` and `t` be about to execute RTI
with the stack pointer where the trap left it and the three bytes of the trap unchanged; nothing
else is known of `t`. -/
theorem rti_undoes_trap (s t : Cpu) (e : Trap) (hs : e.Takes s.machine)
    (hfree : t.state.serviceable = none) (hrti : t.memory.get t.state.pc = 0x40)
    (hsp : t.state.sp = s.state.sp - 3)
    (hcells : ∀ k ∈ [0, 1, 2], t.memory.get (stackAddress (s.state.sp - k)) =
      s.step.cpu.memory.get (stackAddress (s.state.sp - k))) :
    (s.step.cpu.state.status = { s.state.status with irqDisable := true } ∧
      s.step.cpu.state.pending = none ∧
      s.step.cpu.state.pc.toNat = e.target s.memory ∧
      s.step.cpu.memory.get (stackAddress (s.state.sp - 2)) =
        e.pushedByte s.state.status.toByte) ∧
    t.step.cpu.state.pc = e.returnAddress s.state.pc ∧
    t.step.cpu.state.sp = s.state.sp ∧
    t.step.cpu.state.status.toByte = (s.state.status.toByte &&& 0xEF) ||| 0x20 ∧
    t.step.cpu.state.a = t.state.a ∧ t.step.cpu.state.x = t.state.x ∧
    t.step.cpu.state.y = t.state.y ∧ t.step.cpu.state.pending = t.state.pending ∧
    t.step.cpu.memory = t.memory := by
  have hentry := Machine.step_of_takes hs
  have hpushes := (Machine.stacked_three_iff (Machine.sp_step_of_takes hs)).mp
    (Machine.stacked_step_of_takes hs)
  -- the bytes of the trap lie on the stack of `t`, whatever happened since
  have hstacked : t.machine.Stacked _ := (Machine.stacked_three_iff hsp).mpr
    ⟨(hcells 2 (by simp)).trans hpushes.1, (hcells 1 (by simp)).trans hpushes.2.1,
      (hcells 0 (by simp)).trans hpushes.2.2⟩
  have hreturn : t.step.cpu.machine = _ :=
    Machine.step_rti_of_stacked (Machine.upcoming_of_opcode hfree hrti) hstacked
  have hback : t.state.sp + 1 + 1 + 1 = s.state.sp := by
    rw [hsp]
    grind
  refine ⟨⟨?_, ?_, ?_, hpushes.1⟩, ?_⟩
  · rw [state, machine_step, hentry]
    rfl
  · rw [state, machine_step, hentry]
    rfl
  · rw [state, machine_step, hentry]
    exact Machine.toNat_pc_enter _ e e.marked
  · simp only [state, memory, hreturn, hback, Trap.toByte_pulled_pushed, and_self]

/-- An NMI waits while the stack pointer is about to wrap; its handler is an RTI. -/
def interrupted : Cpu :=
  (zero.onMemory fun m => (m.load 0xFFFA [0x00, 0x03]).load 0x0300 [0x40]).onState fun s =>
    { s with pc := 0x1234, sp := 0x01, pending := some .nmi }

/-- The processor in the handler, which has changed two registers. -/
def handling : Cpu := interrupted.step.cpu.onState ({ · with a := 0x07, y := 0x09 })

theorem rti_undoes_trap_interrupted :
    Trap.Takes interrupted.machine (.hardware .nmi) ∧ handling.state.serviceable = none ∧
      handling.memory.get handling.state.pc = 0x40 ∧
      handling.state.sp = interrupted.state.sp - 3 ∧
      interrupted.step.cpu.state.pc.toNat = 0x0300 ∧
      handling.step.cpu.state.pc = 0x1234 ∧ handling.step.cpu.state.sp = 0x01 := by
  have htakes : Trap.Takes interrupted.machine (.hardware .nmi) := rfl
  have hfree : handling.state.serviceable = none := by decide +kernel
  have hrti : handling.memory.get handling.state.pc = 0x40 := by decide +kernel
  have hsp : handling.state.sp = interrupted.state.sp - 3 := by decide +kernel
  have h := rti_undoes_trap interrupted handling (.hardware .nmi) htakes hfree hrti hsp
    (fun _ _ => rfl)
  obtain ⟨⟨-, -, hentered, -⟩, hback, hsp', -⟩ := h
  exact ⟨htakes, hfree, hrti, hsp, hentered.trans (by decide +kernel), hback, hsp'⟩

end Cpu

end Mos6502
