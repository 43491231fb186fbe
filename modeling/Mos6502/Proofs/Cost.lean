import Mos6502.Proofs.Effects

/-!
# The cost of a step

No step takes more than eight cycles, so that the cycles of a run stay inside 64 bits for as long
as it has fewer than 2^61 steps.
-/

namespace Mos6502

/-- The most that a step can take. -/
def Machine.cyclesBound : Nat := 8

namespace Opcode

/-- What a branch costs beyond its row when it is taken to another page. -/
def branchBonus (o : Opcode) : Nat :=
  match o.operation with
  | .branch _ => 2
  | _ => 0

/-- The cycles of a row with every bonus that it can earn. -/
def worst (o : Opcode) : Nat := o.cycles + o.pageBonus.toNat + o.branchBonus

theorem worst_decode_le (v : UInt8) : (decode v).worst ≤ Machine.cyclesBound :=
  forall_decode (P := fun o => o.worst ≤ Machine.cyclesBound) (by decide +kernel) v

end Opcode

namespace Machine

theorem branchCycles_le (m : Machine) (f : Fetched) : m.branchCycles f ≤ f.row.branchBonus := by
  rw [branchCycles, Opcode.branchBonus]
  cases f.row.operation with
  | branch b =>
    simp only
    split
    · split <;> decide
    · decide
  | _ => exact Nat.le_refl _

theorem cycles_le (m : Machine) (act : Activity) : m.cycles act ≤ cyclesBound := by
  cases act with
  | entry i => exact (by decide : entryCycles ≤ cyclesBound)
  | instruction f =>
    have hworst : f.row.worst ≤ cyclesBound := Opcode.worst_decode_le f.opcode
    have hbranch := m.branchCycles_le f
    have hpage : (if f.operand.crossed && f.row.pageBonus then 1 else 0) ≤
        f.row.pageBonus.toNat := by
      cases f.operand.crossed <;> cases f.row.pageBonus <;> decide
    simp only [Opcode.worst] at hworst
    simp only [cycles]
    omega

end Machine

theorem Cpu.step_value_le (c : Cpu) : c.step.value ≤ Machine.cyclesBound := c.machine.cycles_le _

end Mos6502
