import Mathlib.Data.List.Induction
import Mathlib.Order.Bounds.Defs
import Mos6502.Memory

/-!
# Bulk loads

A load can come back to a cell that it has written before, by going on from $FFFF in RAM or through
another window. The last of its bytes that falls in a cell is the one that shows there.
-/

namespace Mos6502.Memory

/-- The positions in a load of `n` bytes whose addresses name the cell of `a`. -/
def positions (start : UInt16) (n : Nat) (a : UInt16) : Set Nat :=
  {i | i < n ∧ cell (start + UInt16.ofNat i) = cell a}

theorem load_append (m : Memory) (start : UInt16) (bytes more : List UInt8) :
    m.load start (bytes ++ more) =
      (m.load start bytes).load (start + UInt16.ofNat bytes.length) more := by
  induction bytes generalizing m start with
  | nil => simp
  | cons b bytes ih =>
    rw [List.cons_append, load_cons, load_cons, ih, add_one_add_ofNat, List.length_cons]

/-- The last byte of a load is stored over all others. -/
theorem get_load_concat (m : Memory) (start : UInt16) (bytes : List UInt8) (b : UInt8) (a : UInt16) :
    (m.load start (bytes ++ [b])).get a =
      if cell (start + UInt16.ofNat bytes.length) = cell a then b
      else (m.load start bytes).get a := by
  rw [load_append, load_cons, load_nil, get_set]

theorem positions_succ_of_ne {start : UInt16} {n : Nat} {a : UInt16}
    (h : cell (start + UInt16.ofNat n) ≠ cell a) :
    positions start (n + 1) a = positions start n a := by
  ext i
  constructor
  · rintro ⟨hi, hcell⟩
    have hne : i ≠ n := by
      rintro rfl
      exact h hcell
    exact ⟨by omega, hcell⟩
  · rintro ⟨hi, hcell⟩
    exact ⟨by omega, hcell⟩

/-- An address shows the byte of the greatest position in its cell, or what it showed before. -/
theorem get_load (m : Memory) (start : UInt16) (bytes : List UInt8) (a : UInt16) :
    (∃ i, IsGreatest (positions start bytes.length a) i ∧
      bytes[i]? = some ((m.load start bytes).get a)) ∨
    ((∀ i < bytes.length, cell (start + UInt16.ofNat i) ≠ cell a) ∧
      (m.load start bytes).get a = m.get a) := by
  induction bytes using List.reverseRecOn with
  | nil => exact .inr ⟨fun i hi => absurd hi (Nat.not_lt_zero i), rfl⟩
  | append_singleton bytes b ih =>
    rw [get_load_concat, List.length_append, List.length_singleton]
    by_cases hlast : cell (start + UInt16.ofNat bytes.length) = cell a
    · rw [if_pos hlast]
      refine .inl ⟨bytes.length, ⟨⟨Nat.lt_succ_self _, hlast⟩, ?_⟩, by simp⟩
      exact fun i hi => Nat.le_of_lt_succ hi.1
    · rw [if_neg hlast, positions_succ_of_ne hlast]
      rcases ih with ⟨i, hgreatest, hbyte⟩ | ⟨hnone, hget⟩
      · exact .inl ⟨i, hgreatest, by rwa [List.getElem?_append_left hgreatest.1.1]⟩
      · refine .inr ⟨fun i hi => ?_, hget⟩
        rcases Nat.lt_succ_iff_lt_or_eq.mp hi with hlt | rfl
        · exact hnone i hlt
        · exact hlast

/-- Where no two bytes of a load fall in one cell, all of them show. -/
theorem map_get_load (m : Memory) (start : UInt16) (bytes : List UInt8)
    (h : ∀ i j, i < j → j < bytes.length →
      cell (start + UInt16.ofNat i) ≠ cell (start + UInt16.ofNat j)) :
    ((List.range bytes.length).map fun i =>
      (m.load start bytes).get (start + UInt16.ofNat i)) = bytes := by
  apply List.ext_getElem?
  intro i
  by_cases hi : i < bytes.length
  · rcases m.get_load start bytes (start + UInt16.ofNat i) with ⟨j, hj, hbyte⟩ | ⟨hnone, -⟩
    · obtain rfl : i = j := by
        by_contra hne
        have hle : i ≤ j := hj.2 ⟨hi, rfl⟩
        exact h i j (by omega) hj.1.1 hj.1.2.symm
      simp [hi, ← hbyte]
    · exact absurd rfl (hnone i hi)
  · simp [Nat.not_lt.mp hi]

/-- Addresses less than the size of RAM apart name different cells. -/
theorem cell_add_ne {a : UInt16} {i j : Nat} (hij : i < j) (hj : j < 2048) :
    cell (a + UInt16.ofNat i) ≠ cell (a + UInt16.ofNat j) := by
  have hlt := a.toNat_lt
  rw [ne_eq, cell_eq_iff]
  simp only [windowEnd, UInt16.toNat_add, UInt16.toNat_ofNat']
  omega

/-- A load no longer than RAM comes back to no cell, so all of its bytes show. -/
theorem map_get_load_of_length_le (m : Memory) (start : UInt16) {bytes : List UInt8}
    (h : bytes.length ≤ 2048) :
    ((List.range bytes.length).map fun i =>
      (m.load start bytes).get (start + UInt16.ofNat i)) = bytes :=
  m.map_get_load start bytes fun _ _ hij hj => cell_add_ne hij (Nat.lt_of_lt_of_le hj h)

/-- A bulk load has a closed form. Every address shows the byte of the greatest position in the load
whose address names the same cell, whether the load came back to the cell through another window or
by going around the end of the address space, and what it showed before if there is none. So a load
in two parts is the whole load, and bytes that fall in different cells read back in order. -/
theorem load_closed_form (m : Memory) (start : UInt16) (bytes : List UInt8) :
    (∀ a,
      (∃ i, IsGreatest (positions start bytes.length a) i ∧
        bytes[i]? = some ((m.load start bytes).get a)) ∨
      ((∀ i < bytes.length, cell (start + UInt16.ofNat i) ≠ cell a) ∧
        (m.load start bytes).get a = m.get a)) ∧
    (∀ more, m.load start (bytes ++ more) =
      (m.load start bytes).load (start + UInt16.ofNat bytes.length) more) ∧
    ((∀ i j, i < j → j < bytes.length →
        cell (start + UInt16.ofNat i) ≠ cell (start + UInt16.ofNat j)) →
      ((List.range bytes.length).map fun i =>
        (m.load start bytes).get (start + UInt16.ofNat i)) = bytes) :=
  ⟨m.get_load start bytes, m.load_append start bytes, m.map_get_load start bytes⟩

theorem load_closed_form_around :
    (∀ i j, i < j → j < [(1 : UInt8), 2, 3].length →
      cell (0xFFFE + UInt16.ofNat i) ≠ cell (0xFFFE + UInt16.ofNat j)) ∧
      ((List.range 3).map fun i =>
        (zero.load 0xFFFE [1, 2, 3]).get (0xFFFE + UInt16.ofNat i)) = [1, 2, 3] := by
  have hcells : ∀ j < 3, ∀ i < j,
      cell (0xFFFE + UInt16.ofNat i) ≠ cell (0xFFFE + UInt16.ofNat j) := by decide +kernel
  have hapart : ∀ i j, i < j → j < [(1 : UInt8), 2, 3].length →
      cell (0xFFFE + UInt16.ofNat i) ≠ cell (0xFFFE + UInt16.ofNat j) :=
    fun i j hij hj => hcells j hj i hij
  exact ⟨hapart, (load_closed_form zero 0xFFFE [1, 2, 3]).2.2 hapart⟩

end Mos6502.Memory
