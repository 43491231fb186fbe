/-!
# Banks of pages

A bank is a fixed number of 256-byte pages. Writing one cell copies one page and leaves the others
shared, so a copy of a bank costs next to nothing. A bank is determined by its cells (`Bank.ext`),
and a write is visible at the cell written and nowhere else (`Bank.get_set`).
-/

namespace Mos6502

abbrev Page := Vector UInt8 256

structure Bank (n : Nat) where
  pages : Vector Page n
  deriving DecidableEq

namespace Bank

variable {n : Nat}

/-- The bank whose cells are all 0. -/
def zero : Bank n := ⟨Vector.replicate n (Vector.replicate 256 0)⟩

def get (b : Bank n) (i : Nat) (h : i < n * 256) : UInt8 :=
  have : i / 256 < n := by omega
  have : i % 256 < 256 := by omega
  b.pages[i / 256][i % 256]

def set (b : Bank n) (i : Nat) (h : i < n * 256) (v : UInt8) : Bank n :=
  have : i / 256 < n := by omega
  have : i % 256 < 256 := by omega
  ⟨b.pages.set (i / 256) (b.pages[i / 256].set (i % 256) v)⟩

/-- All cells in order. -/
def cells (b : Bank n) : Vector UInt8 (n * 256) := b.pages.flatten

@[simp] theorem get_zero (i : Nat) (h : i < n * 256) : (zero : Bank n).get i h = 0 := by
  simp [get, zero]

theorem get_set (b : Bank n) (i j : Nat) (hi : i < n * 256) (hj : j < n * 256) (v : UInt8) :
    (b.set i hi v).get j hj = if i = j then v else b.get j hj := by
  simp only [get, set, Vector.getElem_set]
  by_cases hp : i / 256 = j / 256
  · by_cases ho : i % 256 = j % 256
    · have : i = j := by omega
      simp [this]
    · have : i ≠ j := by rintro rfl; exact ho rfl
      simp [hp, ho, this]
  · have : i ≠ j := by rintro rfl; exact hp rfl
    simp [hp, this]

@[simp] theorem getElem_cells (b : Bank n) (i : Nat) (h : i < n * 256) :
    b.cells[i] = b.get i h := by
  simp [cells, get, Vector.getElem_flatten]

theorem ext {b c : Bank n} (h : ∀ i hi, b.get i hi = c.get i hi) : b = c := by
  rcases b with ⟨p⟩
  rcases c with ⟨q⟩
  congr 1
  refine Vector.ext fun i hi => Vector.ext fun j hj => ?_
  have hi' : (i * 256 + j) / 256 = i := by omega
  have hj' : (i * 256 + j) % 256 = j := by omega
  simpa only [get, hi', hj'] using h (i * 256 + j) (by omega)

end Bank

end Mos6502
