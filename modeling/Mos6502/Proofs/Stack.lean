import Mos6502.Machine

/-!
# The stack as a list

`Memory.Holds` reads the cells above a stack pointer as a list, the last byte pushed first. A push
puts a byte in front and a pull takes it off again, for every pointer and up to 256 bytes, which is
where the bytes of a push would meet the oldest of the list.
-/

namespace Mos6502

open Machine (stackAddress)

/-- The bytes lie in order on the stack above `sp`, which wraps within its page. -/
def Memory.Holds (m : Memory) (sp : UInt8) : List UInt8 → Prop
  | [] => True
  | b :: bs => m.get (stackAddress (sp + 1)) = b ∧ m.Holds (sp + 1) bs

namespace Memory

@[simp] theorem holds_nil (m : Memory) (sp : UInt8) : m.Holds sp [] := trivial

@[simp] theorem holds_cons (m : Memory) (sp b : UInt8) (bs : List UInt8) :
    m.Holds sp (b :: bs) ↔ m.get (stackAddress (sp + 1)) = b ∧ m.Holds (sp + 1) bs := Iff.rfl

theorem get_set_stackAddress (m : Memory) (s t v : UInt8) :
    (m.set (stackAddress s) v).get (stackAddress t) =
      if s = t then v else m.get (stackAddress t) := by
  simp only [get_set, Machine.cell_stackAddress, Machine.stackAddress_inj]

/-- Only the stack page matters. -/
theorem Holds.congr {m n : Memory} {sp : UInt8} {bs : List UInt8}
    (hmn : ∀ v, n.get (stackAddress v) = m.get (stackAddress v)) (h : m.Holds sp bs) :
    n.Holds sp bs := by
  induction bs generalizing sp with
  | nil => trivial
  | cons b bs ih => exact ⟨(hmn _).trans h.1, ih h.2⟩

/-- Fewer than 256 cells above a pointer do not reach around to the pointer itself. -/
theorem add_ofNat_ne (sp : UInt8) {k : Nat} (hpos : 0 < k) (hk : k < 256) :
    sp + UInt8.ofNat k ≠ sp := by
  intro h
  have hsp := sp.toNat_lt
  have ht := congrArg UInt8.toNat h
  simp only [UInt8.toNat_add, UInt8.toNat_ofNat'] at ht
  omega

/-- A write at the pointer spares the bytes that lie `k` cells higher, as long as they end below
the pointer's next turn. -/
theorem Holds.set {m : Memory} {sp : UInt8} (v : UInt8) {k : Nat} {bs : List UInt8}
    (hk : k + bs.length < 256) (h : m.Holds (sp + UInt8.ofNat k) bs) :
    (m.set (stackAddress sp) v).Holds (sp + UInt8.ofNat k) bs := by
  induction bs generalizing k with
  | nil => trivial
  | cons b bs ih =>
    simp only [List.length_cons] at hk
    have hnext : sp + UInt8.ofNat k + 1 = sp + UInt8.ofNat (k + 1) := by
      rw [UInt8.ofNat_add, UInt8.add_assoc]
      rfl
    have hne := add_ofNat_ne sp (k := k + 1) (by omega) (by omega)
    rw [holds_cons, hnext] at h ⊢
    refine ⟨?_, ih (by omega) h.2⟩
    rw [get_set_stackAddress, if_neg hne.symm]
    exact h.1

end Memory

namespace Machine

/-- A push leaves every cell but the one under the stack pointer. -/
theorem get_push_of_ne (m : Machine) (v : UInt8) {a : UInt16}
    (h : Memory.cell a ≠ stackAddress m.state.sp) : (m.push v).memory.get a = m.memory.get a := by
  rw [push, Memory.get_set, cell_stackAddress, if_neg h.symm]

theorem get_push_self (m : Machine) (v : UInt8) :
    (m.push v).memory.get (stackAddress m.state.sp) = v := by
  rw [push, Memory.get_set, if_pos rfl]

/-- The stack lies in RAM, so no cell above the windows is part of it. -/
theorem cell_ne_stackAddress {a : UInt16} (h : Memory.windowEnd ≤ a.toNat) (sp : UInt8) :
    Memory.cell a ≠ stackAddress sp := by
  intro heq
  have ht := congrArg UInt16.toNat heq
  have hsp := sp.toNat_lt
  rw [Memory.toNat_cell, if_neg (Nat.not_lt.mpr h), stackAddress, toNat_word] at ht
  simp only [Memory.windowEnd, UInt8.reduceToNat] at h ht
  omega

/-- The bytes lie on the stack of the machine, the last pushed first. -/
def Stacked (m : Machine) (bs : List UInt8) : Prop := m.memory.Holds m.state.sp bs

theorem Stacked.push {m : Machine} {bs : List UInt8} (h : m.Stacked bs) (hlen : bs.length < 256)
    (v : UInt8) : (m.push v).Stacked (v :: bs) := by
  have hsp : m.state.sp - 1 + 1 = m.state.sp := by simp
  have hrest : (m.memory.set (stackAddress m.state.sp) v).Holds (m.state.sp + UInt8.ofNat 0) bs :=
    Memory.Holds.set v (by omega) (by simpa [Stacked] using h)
  constructor
  · simp [Machine.push, hsp, Memory.get_set_stackAddress]
  · simpa [Machine.push, hsp] using hrest

theorem Stacked.pop_value {m : Machine} {b : UInt8} {bs : List UInt8} (h : m.Stacked (b :: bs)) :
    m.pop.1 = b := h.1

theorem Stacked.pop {m : Machine} {b : UInt8} {bs : List UInt8} (h : m.Stacked (b :: bs)) :
    m.pop.2.Stacked bs := h.2

/-- A word lies with its low byte on top. -/
theorem Stacked.pushWord {m : Machine} {bs : List UInt8} (h : m.Stacked bs)
    (hlen : bs.length + 1 < 256) (w : UInt16) :
    (m.pushWord w).Stacked (lowByte w :: highByte w :: bs) :=
  (h.push (by omega) _).push (by simpa using hlen) _

theorem Stacked.popWord_value {m : Machine} {low high : UInt8} {bs : List UInt8}
    (h : m.Stacked (low :: high :: bs)) : m.popWord.1 = word high low := by
  have hlow := h.pop_value
  have hhigh := h.pop.pop_value
  rw [← hlow, ← hhigh]
  rfl

theorem Stacked.popWord {m : Machine} {low high : UInt8} {bs : List UInt8}
    (h : m.Stacked (low :: high :: bs)) : m.popWord.2.Stacked bs := h.pop.pop

end Machine

end Mos6502
