import Mos6502.Proofs.LittleEndian

/-!
# Rotations of numbers of several bytes

A number may lie anywhere in memory as long as each of its bytes has a cell of its own. ROL from the
lowest byte up doubles it and ROR from the highest byte down halves it, with the carry as one more
bit at the free end. Together with the carry both are exact, so each undoes the other.
-/

namespace Mos6502

/-- A number below `p` and a carry that stands for `p` are both known from their sum. -/
theorem eq_and_eq_of_add_mul_toNat {p x y : Nat} {b c : Bool} (hx : x < p) (hy : y < p)
    (h : x + p * b.toNat = y + p * c.toNat) : x = y ∧ b = c := by
  cases b <;> cases c <;> simp only [Bool.toNat_true, Bool.toNat_false, Nat.mul_one, Nat.mul_zero,
    and_true, reduceCtorEq, and_false] at h ⊢ <;> omega

/-- A number above a carry and that carry are both known from their sum. -/
theorem eq_and_eq_of_two_mul_add_toNat {x y : Nat} {b c : Bool}
    (h : 2 * x + b.toNat = 2 * y + c.toNat) : x = y ∧ b = c := by
  cases b <;> cases c <;> simp only [Bool.toNat_true, Bool.toNat_false, and_true, reduceCtorEq,
    and_false] at h ⊢ <;> omega

/-- The carry of a doubling is the top bit of the number. -/
theorem testBit_of_doubled {x r i : Nat} {b c : Bool} (hx : x < 2 ^ (i + 1)) (hr : r < 2 ^ (i + 1))
    (h : r + 2 ^ (i + 1) * b.toNat = 2 * x + c.toNat) : b = x.testBit i := by
  have hc : c.toNat ≤ 1 := Bool.toNat_le _
  have hpow : 2 ^ (i + 1) = 2 * 2 ^ i := Nat.pow_succ'
  cases b with
  | false =>
    rw [Bool.toNat_false] at h
    exact (Nat.testBit_lt_two_pow (by omega)).symm
  | true =>
    rw [Bool.toNat_true] at h
    exact (Nat.testBit_of_two_pow_le_and_two_pow_add_one_gt (by omega) hx).symm

namespace Memory

/-- The number at the addresses, the lowest byte first. -/
def value (m : Memory) (as : List UInt16) : Nat := littleEndian (as.map m.get)

@[simp] theorem value_nil (m : Memory) : m.value [] = 0 := rfl

@[simp] theorem value_cons (m : Memory) (a : UInt16) (as : List UInt16) :
    m.value (a :: as) = (m.get a).toNat + 256 * m.value as :=
  littleEndian_cons _ _

theorem value_lt (m : Memory) (as : List UInt16) : m.value as < 256 ^ as.length := by
  simpa [value] using littleEndian_lt (as.map m.get)

/-- A store in a cell that no byte of the number has leaves the number alone. -/
theorem value_set {m : Memory} {a : UInt16} {as : List UInt16} (h : cell a ∉ as.map cell)
    (v : UInt8) : (m.set a v).value as = m.value as := by
  have hbytes : as.map (m.set a v).get = as.map m.get := by
    refine List.map_congr_left fun b hb => ?_
    rw [get_set, if_neg]
    intro hcell
    exact h (hcell ▸ List.mem_map_of_mem hb)
  rw [value, value, hbytes]

/-- Memories that hold one number at the addresses and agree in all other cells are equal. -/
theorem eq_of_value {m n : Memory} {as : List UInt16} (hvalue : m.value as = n.value as)
    (hother : ∀ b, cell b ∉ as.map cell → m.get b = n.get b) : m = n := by
  have hbytes : as.map m.get = as.map n.get := littleEndian_inj (by simp) hvalue
  refine ext fun b => ?_
  by_cases hb : cell b ∈ as.map cell
  · obtain ⟨a, ha, hcell⟩ := List.mem_map.mp hb
    rw [← get_congr m hcell, ← get_congr n hcell]
    exact List.map_inj_left.mp hbytes a ha
  · exact hother b hb

end Memory

namespace Machine

/-- Shift in place at one address after another. -/
def shiftAll (m : Machine) (ps : List (Shift × UInt16)) : Machine :=
  ps.foldl (fun m p => m.shiftAt p.1 p.2) m

@[simp] theorem shiftAll_nil (m : Machine) : m.shiftAll [] = m := rfl

@[simp] theorem shiftAll_cons (m : Machine) (k : Shift) (a : UInt16)
    (ps : List (Shift × UInt16)) : m.shiftAll ((k, a) :: ps) = (m.shiftAt k a).shiftAll ps := rfl

theorem shiftAll_append (m : Machine) (ps qs : List (Shift × UInt16)) :
    m.shiftAll (ps ++ qs) = (m.shiftAll ps).shiftAll qs :=
  List.foldl_append

/-- ROL from the lowest byte up. -/
def rols (as : List UInt16) : List (Shift × UInt16) := as.map (.rol, ·)

/-- ROR from the highest byte down. -/
def rors (as : List UInt16) : List (Shift × UInt16) := as.reverse.map (.ror, ·)

theorem rols_cons (a : UInt16) (as : List UInt16) : rols (a :: as) = (.rol, a) :: rols as := rfl

theorem rors_cons (a : UInt16) (as : List UInt16) : rors (a :: as) = rors as ++ [(.ror, a)] := by
  simp [rors]

theorem memory_shiftAt (m : Machine) (k : Shift) (a : UInt16) :
    (m.shiftAt k a).memory =
      m.memory.set a (k.result m.state.status.carry (m.memory.get a)) := rfl

theorem carry_shiftAt (m : Machine) (k : Shift) (a : UInt16) :
    (m.shiftAt k a).state.status.carry = k.out (m.memory.get a) := rfl

theorem snd_mem_of_mem_rols {as : List UInt16} : ∀ p ∈ rols as, p.2 ∈ as := by
  simp [rols]

theorem snd_mem_of_mem_rors {as : List UInt16} : ∀ p ∈ rors as, p.2 ∈ as := by
  simp [rors]

/-- Shifts at some addresses leave every other cell alone. -/
theorem get_shiftAll {m : Machine} {ps : List (Shift × UInt16)} {as : List UInt16} {b : UInt16}
    (hps : ∀ p ∈ ps, p.2 ∈ as) (hb : Memory.cell b ∉ as.map Memory.cell) :
    (m.shiftAll ps).memory.get b = m.memory.get b := by
  induction ps generalizing m with
  | nil => rfl
  | cons p ps ih =>
    obtain ⟨hp, hps⟩ := List.forall_mem_cons.mp hps
    have hne : Memory.cell p.2 ≠ Memory.cell b := fun h => hb (h ▸ List.mem_map_of_mem hp)
    rw [shiftAll_cons, ih hps, memory_shiftAt, Memory.get_set, if_neg hne]

/-- Shifts touch no register but the status, and in it only carry, zero and negative. -/
theorem state_shiftAll (m : Machine) (ps : List (Shift × UInt16)) :
    (m.shiftAll ps).state =
      { m.state with status := { m.state.status with
          carry := (m.shiftAll ps).state.status.carry
          zero := (m.shiftAll ps).state.status.zero
          negative := (m.shiftAll ps).state.status.negative } } := by
  induction ps generalizing m with
  | nil => rfl
  | cons p ps ih =>
    rw [shiftAll_cons]
    exact ih _

/-- ROL doubles a byte; the carry comes in at the low end and bit 7 goes out. -/
theorem rol_value (v : UInt8) (c : Bool) :
    (Shift.rol.result c v).toNat + 256 * (Shift.rol.out v).toNat = 2 * v.toNat + c.toNat :=
  forall_byte (P := fun v => ∀ c : Bool,
    (Shift.rol.result c v).toNat + 256 * (Shift.rol.out v).toNat = 2 * v.toNat + c.toNat)
    (by decide +kernel) v c

/-- ROR halves a byte; the carry comes in at the high end and bit 0 goes out. -/
theorem ror_value (v : UInt8) (c : Bool) :
    2 * (Shift.ror.result c v).toNat + (Shift.ror.out v).toNat = v.toNat + 256 * c.toNat :=
  forall_byte (P := fun v => ∀ c : Bool,
    2 * (Shift.ror.result c v).toNat + (Shift.ror.out v).toNat = v.toNat + 256 * c.toNat)
    (by decide +kernel) v c

/-- A number of some bytes has a top bit. -/
theorem pow_length {as : List UInt16} (hne : as ≠ []) :
    256 ^ as.length = 2 ^ (8 * as.length - 1 + 1) := by
  have hpos : 0 < as.length := List.length_pos_iff.mpr hne
  rw [Nat.sub_add_cancel (by omega), Nat.pow_mul]

section Value

variable {as : List UInt16} (h : (as.map Memory.cell).Nodup) (m : Machine)
include h

/-- ROL from the lowest byte up doubles the number exactly: the carry that comes out is its top. -/
theorem rols_value :
    (m.shiftAll (rols as)).memory.value as +
        256 ^ as.length * (m.shiftAll (rols as)).state.status.carry.toNat =
      2 * m.memory.value as + m.state.status.carry.toNat := by
  induction as generalizing m with
  | nil => simp [rols]
  | cons a as ih =>
    obtain ⟨ha, has⟩ := List.nodup_cons.mp h
    have hfirst := rol_value (m.memory.get a) m.state.status.carry
    have hrest := ih has (m.shiftAt .rol a)
    rw [memory_shiftAt, Memory.value_set ha, carry_shiftAt] at hrest
    rw [rols_cons, shiftAll_cons, Memory.value_cons, Memory.value_cons,
      get_shiftAll snd_mem_of_mem_rols ha, memory_shiftAt, Memory.get_set, if_pos rfl,
      List.length_cons, Nat.pow_succ', Nat.mul_assoc]
    omega

/-- ROR from the highest byte down halves the number exactly: the carry that comes in is its top. -/
theorem rors_value :
    2 * (m.shiftAll (rors as)).memory.value as + (m.shiftAll (rors as)).state.status.carry.toNat =
      m.memory.value as + 256 ^ as.length * m.state.status.carry.toNat := by
  induction as with
  | nil => simp [rors]
  | cons a as ih =>
    obtain ⟨ha, has⟩ := List.nodup_cons.mp h
    have hrest := ih has
    have hlast := ror_value (m.memory.get a) (m.shiftAll (rors as)).state.status.carry
    have hbyte : (m.shiftAll (rors as)).memory.get a = m.memory.get a :=
      get_shiftAll snd_mem_of_mem_rors ha
    rw [rors_cons, shiftAll_append, shiftAll_cons, shiftAll_nil, Memory.value_cons,
      Memory.value_cons, carry_shiftAt, memory_shiftAt, Memory.value_set ha, Memory.get_set,
      if_pos rfl, hbyte, List.length_cons, Nat.pow_succ', Nat.mul_assoc]
    omega

/-- ROR takes back what ROL did. -/
theorem shiftAll_rols_rors :
    ((m.shiftAll (rols as)).shiftAll (rors as)).memory = m.memory ∧
      ((m.shiftAll (rols as)).shiftAll (rors as)).state.status.carry = m.state.status.carry := by
  have hup := rols_value h m
  have hdown := rors_value h (m.shiftAll (rols as))
  obtain ⟨hvalue, hcarry⟩ := eq_and_eq_of_two_mul_add_toNat (hdown.trans hup)
  refine ⟨Memory.eq_of_value hvalue fun b hb => ?_, hcarry⟩
  exact (get_shiftAll snd_mem_of_mem_rors hb).trans (get_shiftAll snd_mem_of_mem_rols hb)

/-- ROL takes back what ROR did. -/
theorem shiftAll_rors_rols :
    ((m.shiftAll (rors as)).shiftAll (rols as)).memory = m.memory ∧
      ((m.shiftAll (rors as)).shiftAll (rols as)).state.status.carry = m.state.status.carry := by
  have hdown := rors_value h m
  have hup := rols_value h (m.shiftAll (rors as))
  obtain ⟨hvalue, hcarry⟩ := eq_and_eq_of_add_mul_toNat (Memory.value_lt _ as)
    (Memory.value_lt _ as) (hup.trans hdown)
  refine ⟨Memory.eq_of_value hvalue fun b hb => ?_, hcarry⟩
  exact (get_shiftAll snd_mem_of_mem_rols hb).trans (get_shiftAll snd_mem_of_mem_rors hb)

/-- ROL from the lowest byte up moves the number up by one place. -/
theorem shiftAll_rols (hne : as ≠ []) :
    (m.shiftAll (rols as)).memory.value as =
        (2 * m.memory.value as + m.state.status.carry.toNat) % 256 ^ as.length ∧
      (m.shiftAll (rols as)).state.status.carry =
        (m.memory.value as).testBit (8 * as.length - 1) := by
  have hup := rols_value h m
  have hbefore := m.memory.value_lt as
  have hafter := (m.shiftAll (rols as)).memory.value_lt as
  constructor
  · rw [← hup, Nat.add_mul_mod_self_left, Nat.mod_eq_of_lt hafter]
  · rw [pow_length hne] at hup hbefore hafter
    exact testBit_of_doubled hbefore hafter hup

/-- ROR from the highest byte down moves the number down by one place. -/
theorem shiftAll_rors (hne : as ≠ []) :
    (m.shiftAll (rors as)).memory.value as =
        m.memory.value as / 2 + m.state.status.carry.toNat * 2 ^ (8 * as.length - 1) ∧
      (m.shiftAll (rors as)).state.status.carry = (m.memory.value as).testBit 0 := by
  have hdown := rors_value h m
  have hout : (m.shiftAll (rors as)).state.status.carry.toNat ≤ 1 := Bool.toNat_le _
  rw [pow_length hne, Nat.pow_succ', Nat.mul_assoc] at hdown
  constructor
  · rw [Nat.mul_comm m.state.status.carry.toNat]
    omega
  · rw [Nat.testBit_zero, Bool.eq_iff_iff, decide_eq_true_eq, ← Bool.toNat_eq_one]
    omega

end Value

def clearCarry (m : Machine) : Machine :=
  { m with state := { m.state with status := { m.state.status with carry := false } } }

/-- The same shifts with another one in the place of the first. -/
def startWith (k : Shift) : List (Shift × UInt16) → List (Shift × UInt16)
  | [] => []
  | p :: ps => (k, p.2) :: ps

/-- ASL is ROL without a carry to come in. -/
theorem shiftAt_asl (m : Machine) (a : UInt16) :
    m.shiftAt .asl a = m.clearCarry.shiftAt .rol a := by
  have hresult : ∀ v : UInt8, Shift.asl.result m.state.status.carry v = Shift.rol.result false v :=
    fun v => (UInt8.add_zero (2 * v)).symm
  simp only [shiftAt, State.shifted, hresult]
  rfl

/-- LSR is ROR without a carry to come in. -/
theorem shiftAt_lsr (m : Machine) (a : UInt16) :
    m.shiftAt .lsr a = m.clearCarry.shiftAt .ror a := by
  have hresult : ∀ v : UInt8, Shift.lsr.result m.state.status.carry v = Shift.ror.result false v :=
    fun v => (UInt8.add_zero (v / 2)).symm
  simp only [shiftAt, State.shifted, hresult]
  rfl

section StartWith

variable {k l : Shift} (h : ∀ (m : Machine) (a : UInt16),
  m.shiftAt k a = m.clearCarry.shiftAt l a)
include h

/-- If the first of some rotations does without the carry, they all go as from a clear carry. -/
theorem shiftAll_startWith (m : Machine) {as : List UInt16} (hne : as ≠ []) :
    m.shiftAll (startWith k (as.map (l, ·))) = m.clearCarry.shiftAll (as.map (l, ·)) := by
  cases as with
  | nil => exact absurd rfl hne
  | cons a as => rw [List.map_cons, startWith, shiftAll_cons, shiftAll_cons, h]

end StartWith

/-- Rotations of a number of `n` bytes, each in a cell of its own. ROL from the lowest byte up
leaves twice the number and the carry, and puts the top bit into the carry; ROR from the highest
byte down leaves half the number with the carry on top, and puts the lowest bit into the carry. Each
of the two undoes the other, and with ASL or LSR as its first shift each goes as from a clear carry.
No shifts at the addresses change another cell, nor a register other than the status, nor in it a
flag other than carry, zero and negative. -/
theorem long_rotation {as : List UInt16} (hne : as ≠ []) (hcells : (as.map Memory.cell).Nodup)
    (m : Machine) :
    let n := as.length
    let x := m.memory.value as
    let c := m.state.status.carry
    let up := m.shiftAll (rols as)
    let down := m.shiftAll (rors as)
    (up.memory.value as = (2 * x + c.toNat) % 256 ^ n ∧
      up.state.status.carry = x.testBit (8 * n - 1)) ∧
    (down.memory.value as = x / 2 + c.toNat * 2 ^ (8 * n - 1) ∧
      down.state.status.carry = x.testBit 0) ∧
    ((up.shiftAll (rors as)).memory = m.memory ∧
      (up.shiftAll (rors as)).state.status.carry = c) ∧
    ((down.shiftAll (rols as)).memory = m.memory ∧
      (down.shiftAll (rols as)).state.status.carry = c) ∧
    (m.shiftAll (startWith .asl (rols as)) = m.clearCarry.shiftAll (rols as) ∧
      m.shiftAll (startWith .lsr (rors as)) = m.clearCarry.shiftAll (rors as)) ∧
    ∀ ps : List (Shift × UInt16), (∀ p ∈ ps, p.2 ∈ as) →
      (∀ b, Memory.cell b ∉ as.map Memory.cell →
        (m.shiftAll ps).memory.get b = m.memory.get b) ∧
      (m.shiftAll ps).state =
        { m.state with status := { m.state.status with
            carry := (m.shiftAll ps).state.status.carry
            zero := (m.shiftAll ps).state.status.zero
            negative := (m.shiftAll ps).state.status.negative } } := by
  intro n x c up down
  have hreverse : as.reverse ≠ [] := by simpa using hne
  refine ⟨shiftAll_rols hcells m hne, shiftAll_rors hcells m hne, shiftAll_rols_rors hcells m,
    shiftAll_rors_rols hcells m,
    ⟨shiftAll_startWith shiftAt_asl m hne, shiftAll_startWith shiftAt_lsr m hreverse⟩, ?_⟩
  intro ps hps
  exact ⟨fun b hb => get_shiftAll hps hb, state_shiftAll m ps⟩

/-- The number $8180 with its low byte at a mirror of $0001 and its high byte above RAM, and the
carry set. -/
def spread : Machine :=
  ⟨{ State.zero with status := { Status.clear with carry := true } },
    (Memory.zero.set 0x0001 0x80).set 0x2000 0x81⟩

theorem long_rotation_spread :
    let as : List UInt16 := [0x0801, 0x2000]
    (as.map Memory.cell).Nodup ∧
      (spread.shiftAll (rols as)).memory.value as = 0x0301 ∧
      (spread.shiftAll (rols as)).state.status.carry = true ∧
      (spread.shiftAll (rors as)).memory.value as = 0xC0C0 ∧
      (spread.shiftAll (rors as)).state.status.carry = false := by
  intro as
  have hcells : (as.map Memory.cell).Nodup := by decide
  obtain ⟨⟨hup, htop⟩, ⟨hdown, hlow⟩, -⟩ := long_rotation (List.cons_ne_nil _ _) hcells spread
  have hvalue : spread.memory.value as = 0x8180 := by decide +kernel
  rw [hvalue] at hup htop hdown hlow
  refine ⟨hcells, hup, htop.trans ?_, hdown, hlow.trans ?_⟩ <;> decide

end Machine

end Mos6502
