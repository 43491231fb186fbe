import Mos6502.State

/-!
# The machine

The register file with its memory, and the stack in page one. A push writes below the stack pointer
and moves it down, a pull moves it up and reads; the pointer is one byte, so the stack never leaves
its page.
-/

namespace Mos6502

structure Machine where
  state : State
  memory : Memory
  deriving DecidableEq

namespace Machine

def zero : Machine := ⟨.zero, .zero⟩

def reset (m : Machine) : Machine := { m with state := .reset m.memory }

/-- The stack address that a value of the stack pointer names. -/
def stackAddress (sp : UInt8) : UInt16 := word 1 sp

def push (m : Machine) (v : UInt8) : Machine :=
  ⟨{ m.state with sp := m.state.sp - 1 }, m.memory.set (stackAddress m.state.sp) v⟩

def pop (m : Machine) : UInt8 × Machine :=
  let sp := m.state.sp + 1
  (m.memory.get (stackAddress sp), { m with state := { m.state with sp := sp } })

/-- Push the high byte and then the low byte. -/
def pushWord (m : Machine) (w : UInt16) : Machine := (m.push (highByte w)).push (lowByte w)

def popWord (m : Machine) : UInt16 × Machine :=
  let (low, m) := m.pop
  let (high, m) := m.pop
  (word high low, m)

def php (m : Machine) : Machine := m.push (m.state.status.pushed true)

def plp (m : Machine) : Machine :=
  let (v, m) := m.pop
  { m with state := { m.state with status := .pulled v } }

def pha (m : Machine) : Machine := m.push m.state.a

def pla (m : Machine) : Machine :=
  let (v, m) := m.pop
  { m with state := m.state.load .a v }

/-- Go on at `target`. -/
def jump (m : Machine) (target : UInt16) : Machine :=
  { m with state := { m.state with pc := target } }

/-- Push the address before the program counter and go on at `target`. -/
def call (m : Machine) (target : UInt16) : Machine := (m.pushWord (m.state.pc - 1)).jump target

def ret (m : Machine) : Machine :=
  let (w, m) := m.popWord
  m.jump (w + 1)

def rti (m : Machine) : Machine :=
  let (w, m) := m.plp.popWord
  m.jump w

/-- The entry sequence of every interrupt: push the program counter and the status, disable
interrupts, empty the latch and go on where the vector points. `brk` marks the pushed status as the
BRK instruction's. -/
def enter (m : Machine) (vector : UInt16) (brk : Bool) : Machine :=
  let m := (m.pushWord m.state.pc).push (m.state.status.pushed brk)
  { m with state := { m.state with
      status := { m.state.status with irqDisable := true }
      pc := m.memory.readWord vector
      pending := none } }

/-- Replace the byte at `a` by its increment. -/
def incrementAt (m : Machine) (a : UInt16) : Machine :=
  let v := m.memory.get a + 1
  ⟨m.state.withResult v, m.memory.set a v⟩

def decrementAt (m : Machine) (a : UInt16) : Machine :=
  let v := m.memory.get a - 1
  ⟨m.state.withResult v, m.memory.set a v⟩

/-- Shift the byte at `a` in place. -/
def shiftAt (m : Machine) (k : Shift) (a : UInt16) : Machine :=
  let v := m.memory.get a
  ⟨m.state.shifted k v, m.memory.set a (k.result m.state.status.carry v)⟩

/-- Shift the accumulator. -/
def shiftA (m : Machine) (k : Shift) : Machine :=
  let v := m.state.a
  { m with state := { m.state.shifted k v with a := k.result m.state.status.carry v } }

@[simp] theorem push_sp (m : Machine) (v : UInt8) : (m.push v).state.sp = m.state.sp - 1 := rfl

@[simp] theorem pop_sp (m : Machine) : m.pop.2.state.sp = m.state.sp + 1 := rfl

@[simp] theorem pop_memory (m : Machine) : m.pop.2.memory = m.memory := rfl

/-- A word is pulled from the two cells above the stack pointer. -/
theorem popWord_value (m : Machine) :
    m.popWord.1 =
      word (m.memory.get (stackAddress (m.state.sp + 2)))
        (m.memory.get (stackAddress (m.state.sp + 1))) := by
  have hsp : m.state.sp + 1 + 1 = m.state.sp + 2 := UInt8.add_assoc _ 1 1
  rw [← hsp]
  rfl

/-- A pull right after a push gives the byte back and restores the registers. -/
@[simp] theorem pop_push (m : Machine) (v : UInt8) :
    (m.push v).pop = (v, { m with memory := (m.push v).memory }) := by
  simp [push, pop, Memory.get_set]

@[simp] theorem stackAddress_inj {s t : UInt8} : stackAddress s = stackAddress t ↔ s = t :=
  ⟨fun h => by simpa [stackAddress] using congrArg lowByte h, fun h => by rw [h]⟩

/-- A stack address is the lowest address of its cell. -/
@[simp] theorem cell_stackAddress (sp : UInt8) :
    Memory.cell (stackAddress sp) = stackAddress sp := by
  have := sp.toNat_lt
  have hlt : (stackAddress sp).toNat < 2048 := by
    simp only [stackAddress, toNat_word, UInt8.reduceToNat]
    omega
  apply UInt16.toNat_inj.mp
  rw [Memory.toNat_cell]
  split <;> omega

/-- A word comes back from the stack as it went. -/
@[simp] theorem popWord_pushWord (m : Machine) (w : UInt16) :
    (m.pushWord w).popWord = (w, { m with memory := (m.pushWord w).memory }) := by
  have h : m.state.sp - 1 ≠ m.state.sp := by
    intro h
    have ht := congrArg UInt8.toNat h
    have := m.state.sp.toNat_lt
    simp only [UInt8.toNat_sub, UInt8.reduceToNat] at ht
    omega
  simp only [popWord, pushWord, pop_push]
  simp [push, pop, Memory.get_set, h]

end Machine

end Mos6502
