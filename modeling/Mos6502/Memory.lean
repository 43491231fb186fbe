import Mos6502.Memory.Ram
import Mos6502.Word

/-!
# Memory

The 64 KiB address space. Addresses below $2000 are windows on the internal RAM; every address from
there up has a cell of its own. `Memory.cell` names the cell behind an address by its lowest
address. Two memories that answer alike at every address are equal (`Memory.ext`), and a write is
visible through exactly the addresses of the cell written (`Memory.get_set`).
-/

namespace Mos6502

structure Memory where
  ram : Ram
  /-- The bytes from $2000 up. -/
  upper : Bank 224
  deriving DecidableEq

namespace Memory

/-- The number of addresses. -/
def size : Nat := 65536

/-- The first address that is not a window on RAM. -/
def windowEnd : Nat := 0x2000

/-- The memory whose cells are all 0. -/
def zero : Memory := ⟨Ram.zero, Bank.zero⟩

/-- The lowest address of the cell that `a` names. -/
def cell (a : UInt16) : UInt16 := if a.toNat < windowEnd then a % 2048 else a

theorem upper_index_lt (a : UInt16) (h : ¬ a.toNat < windowEnd) :
    a.toNat - windowEnd < 224 * 256 := by
  have := a.toNat_lt
  simp only [windowEnd] at *
  omega

def get (m : Memory) (a : UInt16) : UInt8 :=
  if h : a.toNat < windowEnd then m.ram.read a
  else m.upper.get (a.toNat - windowEnd) (upper_index_lt a h)

def set (m : Memory) (a : UInt16) (v : UInt8) : Memory :=
  if h : a.toNat < windowEnd then { m with ram := m.ram.write a v }
  else { m with upper := m.upper.set (a.toNat - windowEnd) (upper_index_lt a h) v }

/-- Store the bytes at consecutive addresses from `start`, going on from $FFFF to $0000. -/
def load (m : Memory) (start : UInt16) : List UInt8 → Memory
  | [] => m
  | b :: bs => (m.set start b).load (start + 1) bs

/-- The word with its low byte at `a` and its high byte at the next address. -/
def readWord (m : Memory) (a : UInt16) : UInt16 := word (m.get (a + 1)) (m.get a)

/-- The address after `a` within its own page: $xxFF is followed by $xx00. -/
def nextInPage (a : UInt16) : UInt16 := word (highByte a) (lowByte a + 1)

/-- The word with its low byte at `a` and its high byte at the next address of the same page. -/
def readWordInPage (m : Memory) (a : UInt16) : UInt16 := word (m.get (nextInPage a)) (m.get a)

/-- A one-line summary that names the sizes and no cell. -/
def summary : String :=
  "Memory \x7b ram: " ++ Ram.summary ++ ", size: " ++ size.repr ++ " \x7d"

theorem toNat_cell (a : UInt16) :
    (cell a).toNat = if a.toNat < windowEnd then a.toNat % 2048 else a.toNat := by
  unfold cell
  split <;> simp

@[simp] theorem get_zero (a : UInt16) : zero.get a = 0 := by
  unfold get
  split <;> simp [zero]

theorem cell_eq_iff (a b : UInt16) : cell a = cell b ↔
    (a.toNat < windowEnd ∧ b.toNat < windowEnd ∧ a.toNat % 2048 = b.toNat % 2048) ∨
    (¬ a.toNat < windowEnd ∧ ¬ b.toNat < windowEnd ∧ a.toNat = b.toNat) := by
  rw [← UInt16.toNat_inj, toNat_cell, toNat_cell]
  have hw : windowEnd = 8192 := rfl
  by_cases ha : a.toNat < windowEnd <;> by_cases hb : b.toNat < windowEnd <;>
    simp only [ha, hb, ↓reduceIte, true_and, false_and, and_false, not_true_eq_false,
      not_false_eq_true, or_false, false_or, iff_false] <;> omega

theorem get_set (m : Memory) (a b : UInt16) (v : UInt8) :
    (m.set a v).get b = if cell a = cell b then v else m.get b := by
  by_cases ha : a.toNat < windowEnd <;> by_cases hb : b.toNat < windowEnd <;>
    simp only [get, set, ha, hb, cell_eq_iff, ↓reduceDIte]
  · by_cases h : a.toNat % 2048 = b.toNat % 2048 <;> simp [Ram.read_write, Ram.index, h]
  · simp
  · simp
  · have : (a.toNat - windowEnd = b.toNat - windowEnd) ↔ a.toNat = b.toNat := by
      simp only [windowEnd] at *
      omega
    simp [Bank.get_set, this]

/-- Addresses of one cell read alike. -/
theorem get_congr (m : Memory) {a b : UInt16} (h : cell a = cell b) : m.get a = m.get b := by
  rcases (cell_eq_iff a b).mp h with ⟨ha, hb, hab⟩ | ⟨_, _, hab⟩
  · simp [get, ha, hb, Ram.read, Ram.index, hab]
  · rw [UInt16.toNat_inj.mp hab]

theorem ext {m n : Memory} (h : ∀ a, m.get a = n.get a) : m = n := by
  rcases m with ⟨r, b⟩
  rcases n with ⟨s, c⟩
  have hr : r = s := by
    refine Ram.ext fun a => ?_
    have hlt : (a % 2048).toNat < windowEnd := by
      simp only [windowEnd, UInt16.toNat_mod, UInt16.reduceToNat]
      omega
    have ha := h (a % 2048)
    simp only [get, dif_pos hlt] at ha
    simpa only [Ram.read, Ram.index_mod] using ha
  have hb : b = c := by
    refine Bank.ext fun i hi => ?_
    have hn : (UInt16.ofNat (i + windowEnd)).toNat = i + windowEnd := by
      simp only [windowEnd, UInt16.toNat_ofNat']
      omega
    have hlt : ¬ (UInt16.ofNat (i + windowEnd)).toNat < windowEnd := by omega
    have ha := h (UInt16.ofNat (i + windowEnd))
    simp only [get, dif_neg hlt] at ha
    simpa only [hn, Nat.add_sub_cancel] using ha
  rw [hr, hb]

@[simp] theorem load_nil (m : Memory) (start : UInt16) : m.load start [] = m := rfl

@[simp] theorem load_cons (m : Memory) (start : UInt16) (b : UInt8) (bs : List UInt8) :
    m.load start (b :: bs) = (m.set start b).load (start + 1) bs := rfl

end Memory

end Mos6502
