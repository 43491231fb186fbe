import Mathlib.Algebra.Group.Nat.Defs
import Mos6502.Fault
import Mos6502.Proofs.Effects

/-!
# Reading texts back

The line of an instruction keeps its columns. Whatever stands in them, an address has four digits, a
byte two and a mnemonic three letters, and the cycles come last. So the line can be cut at fixed
places, and `Snapshot.ofLine` recovers the registers, the opcode and the cycles from what is in the
columns. `Fault.ofMessage` does the same for the text of a fault.
-/

namespace Mos6502

namespace Text

/-- The value of a digit. -/
def digitValue (c : Char) : Nat := if c.toNat < 58 then c.toNat - 48 else c.toNat - 55

/-- The number that digits in a base stand for, the highest first. -/
def number (base : Nat) (cs : List Char) : Nat :=
  cs.foldl (fun n c => n * base + digitValue c) 0

def readByte (cs : List Char) : UInt8 := UInt8.ofNat (number 16 cs)

def readWord (cs : List Char) : UInt16 := UInt16.ofNat (number 16 cs)

/-- Cut a text into columns of the given widths; what is left of it comes last. -/
def columns : List Nat → List Char → List (List Char)
  | [], cs => [cs]
  | w :: ws, cs => cs.take w :: columns ws (cs.drop w)

theorem digitValue_digit {n : Nat} (h : n < 16) : digitValue (digit n) = n := by
  have hall : ∀ i : Fin 16, digitValue (digit i) = i := by decide
  exact hall ⟨n, h⟩

theorem number_append (base : Nat) (cs : List Char) (c : Char) :
    number base (cs ++ [c]) = number base cs * base + digitValue c := by
  simp [number]

/-- Digits of a fixed width give back all of the number that they have room for. -/
theorem number_digits {base : Nat} (hpos : 0 < base) (hbase : base ≤ 16) (width n : Nat) :
    number base (digits base width n) = n % base ^ width := by
  induction width generalizing n with
  | zero =>
    rw [Nat.pow_zero, Nat.mod_one]
    rfl
  | succ width ih =>
    have hdigit : digitValue (digit (n % base)) = n % base :=
      digitValue_digit (Nat.lt_of_lt_of_le (Nat.mod_lt n hpos) hbase)
    rw [digits, number_append, ih, hdigit, Nat.pow_succ', Nat.mod_mul, Nat.mul_comm, Nat.add_comm]

@[simp] theorem readByte_hex2 (v : UInt8) : readByte (hex2 v).toList = v := by
  have hv := v.toNat_lt
  apply UInt8.toNat_inj.mp
  rw [readByte, hex2, String.toList_ofList, number_digits (by decide) (by decide),
    UInt8.toNat_ofNat']
  omega

@[simp] theorem readWord_hex4 (w : UInt16) : readWord (hex4 w).toList = w := by
  have hw := w.toNat_lt
  apply UInt16.toNat_inj.mp
  rw [readWord, hex4, String.toList_ofList, number_digits (by decide) (by decide),
    UInt16.toNat_ofNat']
  omega

@[simp] theorem length_hex2 (v : UInt8) : (hex2 v).toList.length = 2 := by simp [hex2]

@[simp] theorem length_hex4 (w : UInt16) : (hex4 w).toList.length = 4 := by simp [hex4]

/-- A text put together from parts comes apart at their widths. -/
theorem columns_flatten {widths : List Nat} {parts : List (List Char)}
    (h : parts.map List.length = widths) (rest : List Char) :
    columns widths (parts.flatten ++ rest) = parts ++ [rest] := by
  subst h
  induction parts with
  | nil => rfl
  | cons part parts ih => simp [columns, ih]

end Text

open Text

/-- A mnemonic has three letters. -/
theorem Operation.length_mnemonic (op : Operation) : op.mnemonic.toList.length = 3 := by
  cases op with
  | load r | store r | compare r => cases r <;> rfl
  | transfer t => cases t <;> rfl
  | logic l => cases l <;> rfl
  | increment i | decrement i => cases i <;> rfl
  | shift k => cases k <;> rfl
  | branch b => cases b <;> rfl
  | flag c => cases c <;> rfl
  | skip u => cases u <;> rfl
  | _ => rfl

/-- What the line of an instruction shows. -/
structure Snapshot where
  pc : UInt16
  opcode : UInt8
  a : UInt8
  x : UInt8
  y : UInt8
  status : Status
  sp : UInt8
  cycles : UInt64
  deriving DecidableEq, Repr

namespace Snapshot

/-- The widths of the columns before the cycles, each label a column of its own. -/
def widths : List Nat := [4, 2, 2, 1, 3, 4, 2, 3, 2, 3, 2, 3, 2, 4, 2, 5]

/-- Read the line of an instruction. -/
def ofLine (line : String) : Option Snapshot :=
  match columns widths line.toList with
  | [pc, _, opcode, _, _, _, a, _, x, _, y, _, status, _, sp, _, cycles] =>
    some ⟨readWord pc, readByte opcode, readByte a, readByte x, readByte y,
      .ofByte (readByte status), readByte sp, UInt64.ofNat (Nat.ofDigitChars 10 cycles 0)⟩
  | _ => none

end Snapshot

namespace Event

variable (s : State) (opcode : UInt8) (cycles : UInt64)

/-- The columns of the line of an instruction, up to the cycles. -/
def fields : List (List Char) :=
  [(hex4 s.pc).toList, "  ".toList, (hex2 opcode).toList, " ".toList,
    (Opcode.decode opcode).mnemonic.toList, "  A:".toList, (hex2 s.a).toList, " X:".toList,
    (hex2 s.x).toList, " Y:".toList, (hex2 s.y).toList, " P:".toList,
    (hex2 s.status.toByte).toList, " SP:".toList, (hex2 s.sp).toList, " CYC:".toList]

theorem toList_registers :
    (registers s opcode cycles).toList =
      (fields s opcode).flatten ++ cycles.toNat.repr.toList := by
  unfold registers fields
  simp only [String.toList_append, List.flatten_cons, List.flatten_nil, List.append_assoc,
    List.nil_append]

/-- The columns are as wide for every state and opcode. -/
theorem map_length_fields : (fields s opcode).map List.length = Snapshot.widths := by
  simp [fields, Snapshot.widths, Opcode.mnemonic, Operation.length_mnemonic]

theorem columns_registers :
    columns Snapshot.widths (registers s opcode cycles).toList =
      fields s opcode ++ [cycles.toNat.repr.toList] := by
  rw [toList_registers, columns_flatten (map_length_fields s opcode)]

end Event

/-- The line of an instruction reads back as what it was made of. -/
theorem Snapshot.ofLine_registers (s : State) (opcode : UInt8) (cycles : UInt64) :
    ofLine (Event.registers s opcode cycles) =
      some ⟨s.pc, opcode, s.a, s.x, s.y, s.status, s.sp, cycles⟩ := by
  have hcycles : Nat.ofDigitChars 10 cycles.toNat.repr.toList 0 = cycles.toNat := by
    rw [Nat.repr_eq_ofList_toDigits, String.toList_ofList, Nat.ofDigitChars_ten_toDigits]
  rw [ofLine, Event.columns_registers, Event.fields]
  simp only [List.cons_append, List.nil_append, readWord_hex4, readByte_hex2,
    Status.ofByte_toByte, hcycles, UInt64.ofNat_toNat]

example : Snapshot.ofLine "C000  4C JMP  A:00 X:00 Y:00 P:24 SP:FD CYC:7" =
    some ⟨0xC000, 0x4C, 0, 0, 0, .ofByte 0x24, 0xFD, 7⟩ := by
  decide +kernel

namespace Fault

/-- Read the text of a fault. Its first letter tells which of the two it is. -/
def ofMessage (message : String) : Option Fault :=
  let cs := message.toList
  if cs.head? = some 'U' then
    match columns [20, 2, 6] cs with
    | [_, opcode, _, pc] => some (.unassignedOpcode (readByte opcode) (readWord pc))
    | _ => none
  else
    match columns [16] cs with
    | [_, pc] => some (.halted (readWord pc))
    | _ => none

theorem toList_unassignedOpcode (opcode : UInt8) (pc : UInt16) :
    (message (.unassignedOpcode opcode pc)).toList =
      ["Unassigned opcode 0x".toList, (hex2 opcode).toList, " at 0x".toList].flatten ++
        (hex4 pc).toList := by
  change ("Unassigned opcode 0x" ++ hex2 opcode ++ " at 0x" ++ hex4 pc).toList = _
  simp only [String.toList_append, List.flatten_cons, List.flatten_nil, List.append_assoc,
    List.nil_append]

theorem toList_halted (pc : UInt16) :
    (message (.halted pc)).toList = ["CPU halted at 0x".toList].flatten ++ (hex4 pc).toList := by
  change ("CPU halted at 0x" ++ hex4 pc).toList = _
  rw [String.toList_append, List.flatten_singleton]

theorem ofMessage_message (f : Fault) : ofMessage f.message = some f := by
  cases f with
  | unassignedOpcode opcode pc =>
    have hhead : (message (.unassignedOpcode opcode pc)).toList.head? = some 'U' := by
      rw [toList_unassignedOpcode]
      rfl
    have hcolumns : columns [20, 2, 6] (message (.unassignedOpcode opcode pc)).toList =
        ["Unassigned opcode 0x".toList, (hex2 opcode).toList, " at 0x".toList,
          (hex4 pc).toList] := by
      rw [toList_unassignedOpcode]
      exact columns_flatten (by simp) _
    simp only [ofMessage, if_pos hhead, hcolumns, readByte_hex2, readWord_hex4]
  | halted pc =>
    have hhead : (message (.halted pc)).toList.head? = some 'C' := by
      rw [toList_halted]
      rfl
    have hcolumns : columns [16] (message (.halted pc)).toList =
        ["CPU halted at 0x".toList, (hex4 pc).toList] := by
      rw [toList_halted]
      exact columns_flatten (by simp) _
    have hother : ¬ (message (.halted pc)).toList.head? = some 'U' := by
      rw [hhead]
      decide
    simp only [ofMessage, if_neg hother, hcolumns, readWord_hex4]

end Fault

namespace Cpu

/-- What the line of the next instruction is to show. -/
def snapshot (c : Cpu) : Snapshot :=
  let s := c.state
  ⟨s.pc, c.memory.get s.pc, s.a, s.x, s.y, s.status, s.sp, c.cycles⟩

/-- The lines that the next step traces. -/
def traced (c : Cpu) : List String := (c.step.events.filter (·.level = .trace)).map Event.text

/-- A step that executes an instruction traces one line. -/
theorem traced_of_not_serviceable {c : Cpu} (h : c.state.serviceable = none) :
    c.traced = [Event.registers c.state (c.memory.get c.state.pc) c.cycles] := by
  have hevents : c.step.events = c.report (.instruction c.machine.fetch) c.step.cpu.machine := by
    rw [← Machine.next_of_not_serviceable h]
    rfl
  rw [traced, hevents, report]
  cases c.machine.fetch.row.kind <;> rfl

/-- The texts lose nothing of what they show. A step that executes an instruction traces one line,
from which program counter, opcode, registers, flags and cycles can be read back, so equal lines
come from equal values of all of these. The text of a fault can be read back too, so equal texts
come from equal faults. -/
theorem texts_read_back :
    (∀ c : Cpu, c.state.serviceable = none →
      ∃ line, c.traced = [line] ∧ Snapshot.ofLine line = some c.snapshot) ∧
    (∀ c d : Cpu, c.state.serviceable = none → d.state.serviceable = none →
      c.traced = d.traced → c.snapshot = d.snapshot) ∧
    (∀ f : Fault, Fault.ofMessage f.message = some f) ∧
    ∀ f g : Fault, f.message = g.message → f = g := by
  have hline : ∀ c : Cpu, c.state.serviceable = none →
      ∃ line, c.traced = [line] ∧ Snapshot.ofLine line = some c.snapshot :=
    fun c h => ⟨_, traced_of_not_serviceable h, Snapshot.ofLine_registers _ _ _⟩
  refine ⟨hline, ?_, Fault.ofMessage_message, ?_⟩
  · intro c d hc hd htraced
    obtain ⟨line, hcline, hcread⟩ := hline c hc
    obtain ⟨line', hdline, hdread⟩ := hline d hd
    obtain rfl : line = line' := by simpa [hcline, hdline] using htraced
    exact Option.some.inj (hcread.symm.trans hdread)
  · intro f g hmessage
    have hread := congrArg Fault.ofMessage hmessage
    simpa only [Fault.ofMessage_message, Option.some.injEq] using hread

/-- LDA #$01 at $00FF, as late as the cycles can count. -/
def late : Cpu :=
  { (zero.onMemory (·.load 0xFF [0xA9, 0x01])).onState ({ · with pc := 0xFF, sp := 0x0A }) with
    cycles := 0xFFFFFFFFFFFFFFFF }

theorem texts_read_back_late :
    late.state.serviceable = none ∧
      late.traced = (late.onMemory (·.set 0x0300 7)).traced ∧
      late.snapshot = (late.onMemory (·.set 0x0300 7)).snapshot ∧
      (∃ line, late.traced = [line] ∧
        Snapshot.ofLine line =
          some ⟨0x00FF, 0xA9, 0, 0, 0, .clear, 0x0A, 18446744073709551615⟩) ∧
      Fault.message (.halted (0x8000 + 10)) = "CPU halted at 0x800A" ∧
      Fault.halted (0x8000 + 10) = .halted 0x800A := by
  have hfree : late.state.serviceable = none := by decide +kernel
  have hother : (late.onMemory (·.set 0x0300 7)).state.serviceable = none := by decide +kernel
  have htraced : late.traced = (late.onMemory (·.set 0x0300 7)).traced := by decide +kernel
  have hmessage : Fault.message (.halted (0x8000 + 10)) = "CPU halted at 0x800A" := by
    decide +kernel
  have hsnapshot : late.snapshot = ⟨0x00FF, 0xA9, 0, 0, 0, .clear, 0x0A, 18446744073709551615⟩ := by
    decide +kernel
  obtain ⟨hline, hsame, -, hfaults⟩ := texts_read_back
  refine ⟨hfree, htraced, hsame _ _ hfree hother htraced, ?_, hmessage, ?_⟩
  · rw [← hsnapshot]
    exact hline late hfree
  · exact hfaults _ (.halted 0x800A) (by decide +kernel)

end Cpu

end Mos6502
