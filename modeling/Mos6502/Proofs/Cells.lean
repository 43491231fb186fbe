import Mathlib.Logic.ExistsUnique
import Mos6502.Proofs.Footprint

/-!
# Memory as independent cells

Whatever was done to memory, an address shows the last byte stored in its cell since memory was last
cleared, and 0 if there was none. There are 2048 cells behind the windows on RAM and one for each
address above them; a store reaches one cell and no other.
-/

namespace Mos6502.Memory

/-- What can be done to memory. -/
inductive Edit where
  | set (a : UInt16) (v : UInt8)
  | load (start : UInt16) (bytes : List UInt8)
  | clear
  deriving DecidableEq, Repr

def edit (m : Memory) : Edit → Memory
  | .set a v => m.set a v
  | .load start bytes => m.load start bytes
  | .clear => zero

def edits (m : Memory) (es : List Edit) : Memory := es.foldl edit m

/-- The single stores of a load, at consecutive addresses. -/
def loadStores (start : UInt16) : List UInt8 → List (UInt16 × UInt8)
  | [] => []
  | b :: bs => (start, b) :: loadStores (start + 1) bs

/-- The stores since the last clear, after one more edit. -/
def Edit.extend (ws : List (UInt16 × UInt8)) : Edit → List (UInt16 × UInt8)
  | set a v => ws ++ [(a, v)]
  | load start bytes => ws ++ loadStores start bytes
  | clear => []

/-- The single stores of a history since its last clear, in order. -/
def stores (es : List Edit) : List (UInt16 × UInt8) := es.foldl Edit.extend []

/-- The byte of the last store in the cell of `a`. -/
def lastStore (ws : List (UInt16 × UInt8)) (a : UInt16) : Option UInt8 :=
  (ws.reverse.find? fun w => cell w.1 = cell a).map Prod.snd

/-- The lowest address of a cell: RAM first, then the addresses from $2000 up. -/
def lowest (i : Fin (2048 + 57344)) : UInt16 :=
  if i.val < 2048 then UInt16.ofNat i else UInt16.ofNat (i + 6144)

theorem load_eq_storeAll (m : Memory) (start : UInt16) (bytes : List UInt8) :
    m.load start bytes = m.storeAll (loadStores start bytes) := by
  induction bytes generalizing m start with
  | nil => rfl
  | cons b bs ih => exact ih (m.set start b) (start + 1)

/-- The bytes of a load go to consecutive addresses. -/
theorem loadStores_eq_mapIdx (start : UInt16) (bytes : List UInt8) :
    loadStores start bytes = bytes.mapIdx fun i b => (start + UInt16.ofNat i, b) := by
  induction bytes generalizing start with
  | nil => rfl
  | cons b bs ih =>
    have hfirst : start + UInt16.ofNat 0 = start := UInt16.add_zero start
    rw [loadStores, ih, List.mapIdx_cons, hfirst]
    simp only [add_one_add_ofNat]

theorem lastStore_cons (w : UInt16 × UInt8) (ws : List (UInt16 × UInt8)) (a : UInt16) :
    lastStore (w :: ws) a =
      (lastStore ws a).or (if cell w.1 = cell a then some w.2 else none) := by
  simp only [lastStore, List.reverse_cons, List.find?_append, Option.map_or]
  congr 1
  by_cases h : cell w.1 = cell a <;> simp [h]

/-- After a list of stores an address shows the last one in its cell. -/
theorem get_storeAll (m : Memory) (ws : List (UInt16 × UInt8)) (a : UInt16) :
    (m.storeAll ws).get a = (lastStore ws a).getD (m.get a) := by
  induction ws generalizing m with
  | nil => rfl
  | cons w ws ih =>
    rw [storeAll_cons, ih, lastStore_cons, get_set]
    cases lastStore ws a with
    | some v => rfl
    | none => by_cases h : cell w.1 = cell a <;> simp [h]

theorem edit_storeAll (ws : List (UInt16 × UInt8)) (e : Edit) :
    (zero.storeAll ws).edit e = zero.storeAll (e.extend ws) := by
  cases e with
  | set a v => rw [Edit.extend, storeAll_append]; rfl
  | load start bytes => rw [edit, Edit.extend, storeAll_append, load_eq_storeAll]
  | clear => rfl

/-- A history leaves what its stores since the last clear leave in empty memory. -/
theorem edits_zero (es : List Edit) : zero.edits es = zero.storeAll (stores es) := by
  have hfrom : ∀ ws, (zero.storeAll ws).edits es = zero.storeAll (es.foldl Edit.extend ws) := by
    induction es with
    | nil => intro ws; rfl
    | cons e es ih =>
      intro ws
      rw [edits, List.foldl_cons, edit_storeAll]
      exact ih (e.extend ws)
  exact hfrom []

theorem toNat_lowest (i : Fin (2048 + 57344)) :
    (lowest i).toNat = if i.val < 2048 then i.val else i.val + 6144 := by
  have := i.isLt
  unfold lowest
  split <;> simp only [UInt16.toNat_ofNat'] <;> omega

/-- Every address names exactly one of the 2048 + 57344 cells. -/
theorem existsUnique_lowest (a : UInt16) : ∃! i, lowest i = cell a := by
  have ha := a.toNat_lt
  have hw : windowEnd = 8192 := rfl
  simp only [← UInt16.toNat_inj, toNat_lowest, toNat_cell]
  by_cases hlow : a.toNat < windowEnd
  · refine ⟨⟨a.toNat % 2048, by omega⟩, ?_, ?_⟩
    · simp only [if_pos hlow]
      split <;> omega
    · intro i hi
      simp only [if_pos hlow] at hi
      apply Fin.ext
      split at hi <;> simp only <;> omega
  · refine ⟨⟨a.toNat - 6144, by omega⟩, ?_, ?_⟩
    · simp only [if_neg hlow]
      split <;> omega
    · intro i hi
      simp only [if_neg hlow] at hi
      apply Fin.ext
      split at hi <;> simp only <;> omega

/-- A byte of RAM shows in all four windows. -/
theorem getElem_cells_ram (m : Memory) (i : Fin 2048) (k : Fin 4) :
    m.ram.cells[i] = m.get (UInt16.ofNat (i + 2048 * k)) := by
  have hi := i.isLt
  have hk := k.isLt
  have hw : windowEnd = 8192 := rfl
  have ha : (UInt16.ofNat (i + 2048 * k)).toNat = i + 2048 * k := by
    simp only [UInt16.toNat_ofNat']
    omega
  have hlow : (UInt16.ofNat (i + 2048 * k)).toNat < windowEnd := by omega
  have hindex : Ram.index (UInt16.ofNat (i + 2048 * k)) = i := by
    rw [Ram.index, ha]
    omega
  have hcell := m.ram.getElem_cells (UInt16.ofNat (i + 2048 * k)) (by omega)
  rw [get, dif_pos hlow, ← hcell]
  simp only [hindex]
  rfl

/-- Below and above $2000 there are different cells. -/
theorem get_set_of_boundary (m : Memory) {a b : UInt16} (v : UInt8)
    (h : a.toNat < windowEnd ↔ ¬ b.toNat < windowEnd) : (m.set b v).get a = m.get a := by
  rw [get_set, if_neg]
  intro hcell
  rcases (cell_eq_iff b a).mp hcell with ⟨hb, ha, -⟩ | ⟨hb, ha, -⟩
  · exact h.mp ha hb
  · exact ha (h.mpr hb)

/-- Memory is a store of 2048 + 57344 independent cells. After any history of single stores, loads
and clears from empty memory, every address shows the byte last stored in its cell since the last
clear, or 0. The bytes of RAM are those shown in each of its four windows, and no store on one side
of $2000 shows on the other. -/
theorem get_edits_eq_last (es : List Edit) :
    (∀ a, (zero.edits es).get a = (lastStore (stores es) a).getD 0) ∧
    (zero.edits es).ram.cells.toList.length = 2048 ∧
    (∀ (i : Fin 2048) (k : Fin 4),
      (zero.edits es).ram.cells[i] = (zero.edits es).get (UInt16.ofNat (i + 2048 * k))) ∧
    (∀ a b v, (a.toNat < windowEnd ↔ ¬ b.toNat < windowEnd) →
      ((zero.edits es).set b v).get a = (zero.edits es).get a) ∧
    ∀ a, ∃! i, lowest i = cell a := by
  refine ⟨?_, ?_, ?_, ?_, existsUnique_lowest⟩
  · intro a
    rw [edits_zero, get_storeAll, get_zero]
  · simp
  · exact getElem_cells_ram _
  · intro a b v h
    exact get_set_of_boundary _ v h

/-- A byte that a clear removes, and a load that goes on from $FFFF in RAM. -/
def wrapping : List Edit := [.set 0x0801 7, .clear, .load 0xFFFF [1, 2, 3]]

theorem get_edits_eq_last_wrapping :
    (zero.edits wrapping).get 0x1801 = 3 ∧ (zero.edits wrapping).get 0x0802 = 0 ∧
      ((zero.edits wrapping).set 0x2001 9).get 0x0001 = (zero.edits wrapping).get 0x0001 := by
  obtain ⟨hlast, -, -, hboundary, -⟩ := get_edits_eq_last wrapping
  refine ⟨(hlast 0x1801).trans (by decide +kernel), (hlast 0x0802).trans (by decide +kernel), ?_⟩
  exact hboundary 0x0001 0x2001 9 (by decide)

end Mos6502.Memory
