import Mos6502.Memory.Bank

/-!
# Internal RAM

Two kibibytes of storage that answer at every address: an address names the cell of its value
modulo the size, so each cell shows through a window in every 2 KiB of the address space.
-/

namespace Mos6502

structure Ram where
  bank : Bank 8
  deriving DecidableEq

namespace Ram

def size : Nat := 2048

def zero : Ram := ⟨Bank.zero⟩

/-- The number of the cell that an address names. -/
def index (a : UInt16) : Nat := a.toNat % 2048

theorem index_lt (a : UInt16) : index a < 8 * 256 := Nat.mod_lt _ (by decide)

theorem index_mod (a : UInt16) : index (a % 2048) = index a := by
  simp [index]

def read (r : Ram) (a : UInt16) : UInt8 := r.bank.get (index a) (index_lt a)

def write (r : Ram) (a : UInt16) (v : UInt8) : Ram := ⟨r.bank.set (index a) (index_lt a) v⟩

/-- The 2048 cells in order. -/
def cells (r : Ram) : Vector UInt8 2048 := r.bank.cells

/-- A one-line summary that names the size and no cell. -/
def summary : String := "Ram \x7b size: " ++ size.repr ++ " \x7d"

@[simp] theorem read_zero (a : UInt16) : zero.read a = 0 := by simp [zero, read]

theorem read_write (r : Ram) (a b : UInt16) (v : UInt8) :
    (r.write a v).read b = if index a = index b then v else r.read b := by
  simp [read, write, Bank.get_set]

theorem getElem_cells (r : Ram) (a : UInt16) (h : index a < 2048) :
    r.cells[index a] = r.read a :=
  Bank.getElem_cells r.bank (index a) (index_lt a)

theorem ext {r s : Ram} (h : ∀ a, r.read a = s.read a) : r = s := by
  rcases r with ⟨b⟩
  rcases s with ⟨c⟩
  congr 1
  refine Bank.ext fun i hi => ?_
  have hi' : index (UInt16.ofNat i) = i := by
    simp only [index, UInt16.toNat_ofNat']
    omega
  simpa only [read, hi'] using h (UInt16.ofNat i)

end Ram

end Mos6502
