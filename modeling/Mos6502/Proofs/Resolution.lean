import Mos6502.Proofs.Addresses

/-!
# What a step publishes

An instruction publishes where it was and what it uses, by the formulas of the state before it. Only
the modes that index a word report a crossing, and they report it exactly when the high byte of the
address is not that of the base.
-/

namespace Mos6502

namespace Memory

/-- Away from the end of a page the next address in the page is the next address. -/
theorem nextInPage_eq_add_one {a : UInt16} (h : a.toNat % 256 ≠ 255) : nextInPage a = a + 1 := by
  have ha := a.toNat_lt
  apply UInt16.toNat_inj.mp
  simp only [nextInPage, toNat_word, toNat_highByte, UInt8.toNat_add, toNat_lowByte,
    UInt16.toNat_add, UInt8.reduceToNat, UInt16.reduceToNat]
  omega

theorem readWordInPage_eq_readWord (m : Memory) {a : UInt16} (h : a.toNat % 256 ≠ 255) :
    m.readWordInPage a = m.readWord a := by
  rw [readWordInPage, nextInPage_eq_add_one h, readWord]

end Memory

/-- A page is reported crossed when the high byte of the address is not that of the base. -/
theorem Machine.crossed_iff_highByte_ne {m : Machine} {mode : Mode} {base : Nat} {index : UInt8}
    (h : m.indexing mode = some (base, index)) :
    (m.resolve mode).crossed ↔ base / 256 ≠ m.operandAddress mode / 256 := by
  obtain ⟨w, rfl, hresolve⟩ := exists_resolve_eq_indexed h
  rw [← toNat_resolve, hresolve, Resolved.indexed, pagesDiffer, bne_iff_ne, Ne, ← UInt8.toNat_inj,
    toNat_highByte, toNat_highByte]

/-- An instruction publishes where it was and what it uses, resolved before the step. -/
theorem Cpu.context_step_of_not_serviceable {c : Cpu} (h : c.state.serviceable = none) :
    c.step.cpu.context =
      ⟨c.state.pc, UInt16.ofNat (c.machine.operandAddress c.machine.row.mode),
        c.machine.row.mode⟩ := by
  change c.machine.context c.machine.next = _
  rw [Machine.next_of_not_serviceable h, ← Machine.address_resolve]
  rfl

/-- Addresses resolve by the formulas of their modes, and what a step publishes is resolved before
the step. An instruction publishes its own address, its effective address and its mode, whatever it
does to registers and memory. The page is reported crossed only where an index is added to a word,
and there exactly when it carries out of the low byte, or in other words when the high byte of the
address is not that of the base. A pointer that does not start at the end of a page reads like any
other word. -/
theorem Cpu.context_and_resolution (c : Cpu) :
    (c.state.serviceable = none →
      let mode := (Opcode.decode (c.memory.get c.state.pc)).mode
      c.step.cpu.context =
        ⟨c.state.pc, UInt16.ofNat (c.machine.operandAddress mode), mode⟩) ∧
    (∀ mode,
      (c.machine.resolve mode).address.toNat = c.machine.operandAddress mode ∧
      (c.machine.indexing mode = none → (c.machine.resolve mode).crossed = false) ∧
      ∀ base index, c.machine.indexing mode = some (base, index) →
        ((c.machine.resolve mode).crossed ↔ 256 ≤ base % 256 + index.toNat) ∧
        ((c.machine.resolve mode).crossed ↔
          base / 256 ≠ c.machine.operandAddress mode / 256)) ∧
    ∀ a : UInt16, a.toNat % 256 ≠ 255 → c.memory.readWordInPage a = c.memory.readWord a := by
  refine ⟨?_, ?_, ?_⟩
  · intro hfree mode
    exact context_step_of_not_serviceable hfree
  · intro mode
    refine ⟨c.machine.toNat_resolve mode, Machine.crossed_of_indexing_eq_none, ?_⟩
    intro base index hindex
    refine ⟨?_, Machine.crossed_iff_highByte_ne hindex⟩
    rw [Machine.crossed_of_indexing hindex, decide_eq_true_iff]
    exact Iff.rfl
  · intro a ha
    exact c.memory.readWordInPage_eq_readWord ha

/-- LDA $FFF0,X whose operand goes on at $0000, as does the address. -/
def Cpu.loadingAround : Cpu :=
  (zero.onMemory (·.load 0xFFFE [0xBD, 0xF0, 0xFF])).onState fun s =>
    { s with pc := 0xFFFE, x := 0x20 }

theorem Cpu.context_and_resolution_around :
    loadingAround.state.serviceable = none ∧
      loadingAround.step.cpu.context = ⟨0xFFFE, 0x0010, .absoluteX⟩ ∧
      (loadingAround.machine.resolve .absoluteX).crossed = true ∧
      loadingAround.memory.readWordInPage 0xFFFE = 0xF0BD := by
  have hfree : loadingAround.state.serviceable = none := by decide +kernel
  obtain ⟨hcontext, hresolve, hread⟩ := context_and_resolution loadingAround
  obtain ⟨-, -, hcrossed⟩ := hresolve .absoluteX
  refine ⟨hfree, (hcontext hfree).trans ?_, ?_, ?_⟩
  · decide +kernel
  · exact (hcrossed 0xFFF0 0x20 (by decide +kernel)).1.mpr (by decide)
  · exact (hread 0xFFFE (by decide)).trans (by decide +kernel)

end Mos6502
