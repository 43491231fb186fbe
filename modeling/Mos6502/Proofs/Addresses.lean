import Mos6502.Proofs.Overflow

/-!
# Addresses as numbers

What memory holds and where an instruction finds its operand, as formulas over numbers that know
nothing of words. `Machine.operandAddress` is the effective address of every mode, with the width at
which each sum wraps: 8 bits for an index in page zero and for the second byte of a pointer there,
16 bits for an index on a word. `Machine.indexing` names the modes that add an index to a word; the
sum crosses a page exactly when the index carries out of the low byte.
-/

namespace Mos6502

theorem toNat_displacement (v : UInt8) :
    (displacement v).toNat = (signed v % 65536).toNat :=
  forall_byte (P := fun v => (displacement v).toNat = (signed v % 65536).toNat)
    (by decide +kernel) v

/-- An index moves an address to another page exactly when it carries, also past $FFFF. -/
theorem pagesDiffer_add (base : UInt16) (index : UInt8) :
    pagesDiffer base (base + index.toUInt16) =
      decide (255 < base.toNat % 256 + index.toNat) := by
  have hbase := base.toNat_lt
  have hindex := index.toNat_lt
  have hsum : (base + index.toUInt16).toNat = (base.toNat + index.toNat) % 65536 := by
    simp [UInt16.toNat_add]
  have hpage : highByte base ≠ highByte (base + index.toUInt16) ↔
      255 < base.toNat % 256 + index.toNat := by
    rw [Ne, ← UInt8.toNat_inj, toNat_highByte, toNat_highByte, hsum]
    omega
  rw [Bool.eq_iff_iff, decide_eq_true_iff, pagesDiffer, bne_iff_ne]
  exact hpage

/-- The high mask keeps the high byte of a word. -/
theorem and_highMask {n : Nat} (h : n < 65536) : n &&& 0xFF00 = 256 * (n / 256) := by
  apply Nat.eq_of_testBit_eq
  intro i
  have hmask : (0xFF00 : Nat) = 2 ^ 8 * (2 ^ 8 - 1) := rfl
  have hpage : 256 * (n / 256) = 2 ^ 8 * (n / 2 ^ 8) := rfl
  rw [Nat.testBit_and, hmask, hpage, Nat.testBit_two_pow_mul, Nat.testBit_two_pow_mul,
    Nat.testBit_two_pow_sub_one, Nat.testBit_div_two_pow]
  by_cases hlow : 8 ≤ i
  · have hi : i - 8 + 8 = i := by omega
    by_cases hhigh : i - 8 < 8
    · simp [hlow, hhigh, hi]
    · have hpow : 2 ^ 16 ≤ 2 ^ i := Nat.pow_le_pow_right (by decide) (by omega)
      have hbit : n.testBit i = false := Nat.testBit_lt_two_pow (Nat.lt_of_lt_of_le h hpow)
      simp [hi, hbit]
  · simp [hlow]

namespace Memory

/-- The byte at an address, as numbers; the address wraps. -/
def byteAt (m : Memory) (n : Nat) : Nat := (m.get (UInt16.ofNat n)).toNat

/-- The word with its two bytes at the given addresses. -/
def wordAt (m : Memory) (low high : Nat) : Nat := m.byteAt low + 256 * m.byteAt high

/-- The address after `q` in the same page. -/
def pageNext (q : Nat) : Nat := (q &&& 0xFF00) ||| ((q + 1) &&& 0xFF)

theorem toNat_get (m : Memory) (a : UInt16) : (m.get a).toNat = m.byteAt a.toNat := by
  rw [byteAt, UInt16.ofNat_toNat]

theorem toNat_get_add (m : Memory) (a : UInt16) (n : Nat) :
    (m.get (a + UInt16.ofNat n)).toNat = m.byteAt (a.toNat + n) := by
  rw [byteAt, UInt16.ofNat_add, UInt16.ofNat_toNat]

theorem toNat_readWord (m : Memory) (a : UInt16) (n : Nat) :
    (m.readWord (a + UInt16.ofNat n)).toNat = m.wordAt (a.toNat + n) (a.toNat + (n + 1)) := by
  have hnext : a + UInt16.ofNat n + 1 = a + UInt16.ofNat (n + 1) := by
    rw [UInt16.ofNat_add, ← UInt16.add_assoc]
    rfl
  rw [readWord, toNat_word, hnext, toNat_get_add, toNat_get_add, wordAt]
  omega

/-- The address after `q` in the same page has the high byte of `q` and the low byte of `q + 1`. -/
theorem toNat_nextInPage (q : UInt16) : (nextInPage q).toNat = pageNext q.toNat := by
  have hq := q.toNat_lt
  have hlow : (lowByte q + 1).toNat = (q.toNat + 1) % 256 := by
    simp only [UInt8.toNat_add, toNat_lowByte, UInt8.reduceToNat]
    omega
  have hand : (q.toNat + 1) &&& 0xFF = (q.toNat + 1) % 256 := Nat.and_two_pow_sub_one_eq_mod _ 8
  have hor : 256 * (q.toNat / 256) + (q.toNat + 1) % 256 =
      256 * (q.toNat / 256) ||| (q.toNat + 1) % 256 :=
    Nat.two_pow_add_eq_or_of_lt (i := 8) (Nat.mod_lt _ (by decide)) _
  rw [nextInPage, toNat_word, toNat_highByte, hlow, pageNext, and_highMask hq, hand, ← hor,
    Nat.mul_comm]

theorem toNat_readWordInPage (m : Memory) (q : UInt16) :
    (m.readWordInPage q).toNat = m.wordAt q.toNat (pageNext q.toNat) := by
  rw [readWordInPage, toNat_word, toNat_get, toNat_get, toNat_nextInPage, wordAt]
  omega

end Memory

namespace Machine

theorem stackAddress_eq (sp : UInt8) : stackAddress sp = UInt16.ofNat (0x100 + sp.toNat) := by
  have hsp := sp.toNat_lt
  apply UInt16.toNat_inj.mp
  simp only [stackAddress, toNat_word, UInt16.toNat_ofNat', UInt8.reduceToNat]
  omega

/-- The stack pointer wraps before it is put into page one. -/
theorem stackAddress_add (sp : UInt8) (k : Nat) :
    stackAddress (sp + UInt8.ofNat k) = UInt16.ofNat (0x100 + (sp.toNat + k) % 256) := by
  rw [stackAddress_eq, UInt8.toNat_add, UInt8.toNat_ofNat', Nat.add_mod_mod]

/-- The base and the index of a mode that adds an index to a word. -/
def indexing (m : Machine) (mode : Mode) : Option (Nat × UInt8) :=
  let p := m.state.pc.toNat
  match mode with
  | .absoluteX => some (m.memory.wordAt (p + 1) (p + 2), m.state.x)
  | .absoluteY => some (m.memory.wordAt (p + 1) (p + 2), m.state.y)
  | .indirectIndexed =>
    let z := m.memory.byteAt (p + 1)
    some (m.memory.wordAt z ((z + 1) % 256), m.state.y)
  | _ => none

/-- The effective address by the formula of its mode. -/
def operandAddress (m : Machine) (mode : Mode) : Nat :=
  let p := m.state.pc.toNat
  let x := m.state.x.toNat
  let y := m.state.y.toNat
  let byte := m.memory.byteAt (p + 1)
  let operandWord := m.memory.wordAt (p + 1) (p + 2)
  match mode with
  | .implied | .accumulator => 0
  | .immediate => (p + 1) % 65536
  | .zeroPage => byte
  | .zeroPageX => (byte + x) % 256
  | .zeroPageY => (byte + y) % 256
  | .relative => ((p + 2 + signed (m.memory.get (UInt16.ofNat (p + 1)))) % 65536).toNat
  | .absolute => operandWord
  | .absoluteX => (operandWord + x) % 65536
  | .absoluteY => (operandWord + y) % 65536
  | .indirect => m.memory.wordAt operandWord (Memory.pageNext operandWord)
  | .indexedIndirect =>
    let z := (byte + x) % 256
    m.memory.wordAt z ((z + 1) % 256)
  | .indirectIndexed => (m.memory.wordAt byte ((byte + 1) % 256) + y) % 65536

theorem toNat_operandByte (m : Machine) :
    m.operandByte.toNat = m.memory.byteAt (m.state.pc.toNat + 1) :=
  m.memory.toNat_get_add m.state.pc 1

theorem toNat_operandWord (m : Machine) :
    m.operandWord.toNat =
      m.memory.wordAt (m.state.pc.toNat + 1) (m.state.pc.toNat + 2) :=
  m.memory.toNat_readWord m.state.pc 1

/-- Both bytes of a pointer lie in page zero. -/
theorem toNat_pointer (m : Machine) (z : UInt8) :
    (m.pointer z).toNat = m.memory.wordAt z.toNat ((z.toNat + 1) % 256) := by
  have hz := z.toNat_lt
  have hnext : (Memory.nextInPage z.toUInt16).toNat = (z.toNat + 1) % 256 := by
    simp only [Memory.nextInPage, toNat_word, toNat_highByte, UInt8.toNat_add, toNat_lowByte,
      UInt8.toNat_toUInt16, UInt8.reduceToNat]
    omega
  rw [pointer, Memory.readWordInPage, toNat_word, Memory.toNat_get, Memory.toNat_get, hnext,
    UInt8.toNat_toUInt16, Memory.wordAt]
  omega

/-- The effective address of every mode follows its formula. -/
theorem toNat_resolve (m : Machine) (mode : Mode) :
    (m.resolve mode).address.toNat = m.operandAddress mode := by
  cases mode with
  | implied | accumulator => rfl
  | immediate => exact UInt16.toNat_add _ _
  | zeroPage => exact m.toNat_operandByte
  | relative =>
    have hbyte : m.memory.get (UInt16.ofNat (m.state.pc.toNat + 1)) = m.operandByte := by
      rw [UInt16.ofNat_add, UInt16.ofNat_toNat]
      rfl
    simp only [resolve, Resolved.fixed, operandAddress, hbyte, UInt16.toNat_add,
      toNat_displacement, UInt16.reduceToNat]
    omega
  | absolute => exact m.toNat_operandWord
  | indirect =>
    rw [resolve, Resolved.fixed, Memory.toNat_readWordInPage, toNat_operandWord]
    rfl
  | zeroPageX | zeroPageY | absoluteX | absoluteY | indexedIndirect | indirectIndexed =>
    simp only [resolve, Resolved.fixed, Resolved.indexed, operandAddress, UInt8.toNat_toUInt16,
      UInt8.toNat_add, UInt16.toNat_add, toNat_operandByte, toNat_operandWord, toNat_pointer]

theorem address_resolve (m : Machine) (mode : Mode) :
    (m.resolve mode).address = UInt16.ofNat (m.operandAddress mode) := by
  rw [← toNat_resolve, UInt16.ofNat_toNat]

/-- The modes that index a word resolve by adding the index to it. -/
theorem exists_resolve_eq_indexed {m : Machine} {mode : Mode} {base : Nat} {index : UInt8}
    (h : m.indexing mode = some (base, index)) :
    ∃ w : UInt16, w.toNat = base ∧ m.resolve mode = .indexed w index := by
  cases mode with
  | absoluteX | absoluteY =>
    cases h
    exact ⟨_, m.toNat_operandWord, rfl⟩
  | indirectIndexed =>
    cases h
    exact ⟨_, m.toNat_operandByte ▸ m.toNat_pointer m.operandByte, rfl⟩
  | _ => nomatch h

/-- No other mode crosses a page. -/
theorem crossed_of_indexing_eq_none {m : Machine} {mode : Mode} (h : m.indexing mode = none) :
    (m.resolve mode).crossed = false := by
  cases mode with
  | absoluteX | absoluteY | indirectIndexed => nomatch h
  | _ => rfl

/-- Indexing crosses a page when the index carries out of the low byte of the base. -/
theorem crossed_of_indexing {m : Machine} {mode : Mode} {base : Nat} {index : UInt8}
    (h : m.indexing mode = some (base, index)) :
    (m.resolve mode).crossed = decide (255 < base % 256 + index.toNat) := by
  obtain ⟨w, rfl, hresolve⟩ := exists_resolve_eq_indexed h
  rw [hresolve]
  exact pagesDiffer_add w index

end Machine

end Mos6502
