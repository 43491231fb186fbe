import Mos6502.Addressing

/-!
# Opcodes

One row for each opcode byte: the operation, where its operand lies, how long the instruction is,
what it costs, and its standing. The table covers all 256 bytes, so decoding never fails.
-/

namespace Mos6502

/-- The standing of an opcode. Stubs and unassigned opcodes have no effect; strict execution refuses
the unassigned. -/
inductive Kind where
  | official | unofficial | stub | unassigned
  deriving DecidableEq, Repr

structure Opcode where
  operation : Operation
  mode : Mode
  /-- The number of bytes to the next instruction; BRK is followed by a padding byte. -/
  length : Nat
  cycles : Nat
  /-- A page crossing costs one cycle more. -/
  pageBonus : Bool
  /-- The encoding is undocumented although the operation is not. -/
  undocumented : Bool
  deriving DecidableEq, Repr

namespace Opcode

def kind (o : Opcode) : Kind :=
  match o.operation with
  | .skip u => if u.isStub then .stub else .unassigned
  | _ => if o.undocumented then .unofficial else .official

/-- The opcode has no effect beyond its length and cost. -/
def unimplemented (o : Opcode) : Bool := o.kind == .stub || o.kind == .unassigned

def mnemonic (o : Opcode) : String := o.operation.mnemonic

/-- A row with a fixed cost. -/
def row (operation : Operation) (mode : Mode) (length cycles : Nat) : Opcode :=
  ⟨operation, mode, length, cycles, false, false⟩

/-- A row that costs one cycle more when the address crosses a page. -/
def paged (operation : Operation) (mode : Mode) (length cycles : Nat) : Opcode :=
  ⟨operation, mode, length, cycles, true, false⟩

/-- A row of an undocumented encoding. -/
def aliased (operation : Operation) (mode : Mode) (length cycles : Nat) : Opcode :=
  ⟨operation, mode, length, cycles, false, true⟩

set_option maxRecDepth 4000 in
/-- The rows from $00 to $FF, in blocks of sixteen. -/
def table : Vector Opcode 256 := #v[
  row .brk .implied 2 7,
  row (.logic .ora) .indexedIndirect 2 6,
  row (.skip .kil) .implied 1 2,
  row (.skip .slo) .indexedIndirect 2 8,
  row (.skip .ign) .zeroPage 2 3,
  row (.logic .ora) .zeroPage 2 3,
  row (.shift .asl) .zeroPage 2 5,
  row (.skip .slo) .zeroPage 2 5,
  row .php .implied 1 3,
  row (.logic .ora) .immediate 2 2,
  row (.shift .asl) .accumulator 1 2,
  row (.skip .anc) .immediate 2 2,
  row (.skip .ign) .absolute 3 4,
  row (.logic .ora) .absolute 3 4,
  row (.shift .asl) .absolute 3 6,
  row (.skip .slo) .absolute 3 6,

  row (.branch .bpl) .relative 2 2,
  paged (.logic .ora) .indirectIndexed 2 5,
  row (.skip .kil) .implied 1 2,
  row (.skip .slo) .indirectIndexed 2 8,
  row (.skip .ign) .zeroPageX 2 4,
  row (.logic .ora) .zeroPageX 2 4,
  row (.shift .asl) .zeroPageX 2 6,
  row (.skip .slo) .zeroPageX 2 6,
  row (.flag .clc) .implied 1 2,
  paged (.logic .ora) .absoluteY 3 4,
  aliased .nop .implied 1 2,
  row (.skip .slo) .absoluteY 3 7,
  paged (.skip .ign) .absoluteX 3 4,
  paged (.logic .ora) .absoluteX 3 4,
  row (.shift .asl) .absoluteX 3 7,
  row (.skip .slo) .absoluteX 3 7,

  row .call .absolute 3 6,
  row (.logic .and) .indexedIndirect 2 6,
  row (.skip .kil) .implied 1 2,
  row (.skip .rla) .indexedIndirect 2 8,
  row .bit .zeroPage 2 3,
  row (.logic .and) .zeroPage 2 3,
  row (.shift .rol) .zeroPage 2 5,
  row (.skip .rla) .zeroPage 2 5,
  row .plp .implied 1 4,
  row (.logic .and) .immediate 2 2,
  row (.shift .rol) .accumulator 1 2,
  row (.skip .anc) .immediate 2 2,
  row .bit .absolute 3 4,
  row (.logic .and) .absolute 3 4,
  row (.shift .rol) .absolute 3 6,
  row (.skip .rla) .absolute 3 6,

  row (.branch .bmi) .relative 2 2,
  paged (.logic .and) .indirectIndexed 2 5,
  row (.skip .kil) .implied 1 2,
  row (.skip .rla) .indirectIndexed 2 8,
  row (.skip .ign) .zeroPageX 2 4,
  row (.logic .and) .zeroPageX 2 4,
  row (.shift .rol) .zeroPageX 2 6,
  row (.skip .rla) .zeroPageX 2 6,
  row (.flag .sec) .implied 1 2,
  paged (.logic .and) .absoluteY 3 4,
  aliased .nop .implied 1 2,
  row (.skip .rla) .absoluteY 3 7,
  paged (.skip .ign) .absoluteX 3 4,
  paged (.logic .and) .absoluteX 3 4,
  row (.shift .rol) .absoluteX 3 7,
  row (.skip .rla) .absoluteX 3 7,

  row .rti .implied 1 6,
  row (.logic .eor) .indexedIndirect 2 6,
  row (.skip .kil) .implied 1 2,
  row (.skip .sre) .indexedIndirect 2 8,
  row (.skip .ign) .zeroPage 2 3,
  row (.logic .eor) .zeroPage 2 3,
  row (.shift .lsr) .zeroPage 2 5,
  row (.skip .sre) .zeroPage 2 5,
  row .pha .implied 1 3,
  row (.logic .eor) .immediate 2 2,
  row (.shift .lsr) .accumulator 1 2,
  row (.skip .alr) .immediate 2 2,
  row .jump .absolute 3 3,
  row (.logic .eor) .absolute 3 4,
  row (.shift .lsr) .absolute 3 6,
  row (.skip .sre) .absolute 3 6,

  row (.branch .bvc) .relative 2 2,
  paged (.logic .eor) .indirectIndexed 2 5,
  row (.skip .kil) .implied 1 2,
  row (.skip .sre) .indirectIndexed 2 8,
  row (.skip .ign) .zeroPageX 2 4,
  row (.logic .eor) .zeroPageX 2 4,
  row (.shift .lsr) .zeroPageX 2 6,
  row (.skip .sre) .zeroPageX 2 6,
  row (.flag .cli) .implied 1 2,
  paged (.logic .eor) .absoluteY 3 4,
  aliased .nop .implied 1 2,
  row (.skip .sre) .absoluteY 3 7,
  paged (.skip .ign) .absoluteX 3 4,
  paged (.logic .eor) .absoluteX 3 4,
  row (.shift .lsr) .absoluteX 3 7,
  row (.skip .sre) .absoluteX 3 7,

  row .ret .implied 1 6,
  row .adc .indexedIndirect 2 6,
  row (.skip .kil) .implied 1 2,
  row (.skip .rra) .indexedIndirect 2 8,
  row (.skip .ign) .zeroPage 2 3,
  row .adc .zeroPage 2 3,
  row (.shift .ror) .zeroPage 2 5,
  row (.skip .rra) .zeroPage 2 5,
  row .pla .implied 1 4,
  row .adc .immediate 2 2,
  row (.shift .ror) .accumulator 1 2,
  row (.skip .arr) .immediate 2 2,
  row .jump .indirect 3 5,
  row .adc .absolute 3 4,
  row (.shift .ror) .absolute 3 6,
  row (.skip .rra) .absolute 3 6,

  row (.branch .bvs) .relative 2 2,
  paged .adc .indirectIndexed 2 5,
  row (.skip .kil) .implied 1 2,
  row (.skip .rra) .indirectIndexed 2 8,
  row (.skip .ign) .zeroPageX 2 4,
  row .adc .zeroPageX 2 4,
  row (.shift .ror) .zeroPageX 2 6,
  row (.skip .rra) .zeroPageX 2 6,
  row (.flag .sei) .implied 1 2,
  paged .adc .absoluteY 3 4,
  aliased .nop .implied 1 2,
  row (.skip .rra) .absoluteY 3 7,
  paged (.skip .ign) .absoluteX 3 4,
  paged .adc .absoluteX 3 4,
  row (.shift .ror) .absoluteX 3 7,
  row (.skip .rra) .absoluteX 3 7,

  row (.skip .skb) .immediate 2 2,
  row (.store .a) .indexedIndirect 2 6,
  row (.skip .skb) .immediate 2 2,
  row (.skip .sax) .indexedIndirect 2 6,
  row (.store .y) .zeroPage 2 3,
  row (.store .a) .zeroPage 2 3,
  row (.store .x) .zeroPage 2 3,
  row (.skip .sax) .zeroPage 2 3,
  row (.decrement .y) .implied 1 2,
  row (.skip .skb) .immediate 2 2,
  row (.transfer .txa) .implied 1 2,
  row (.skip .xaa) .immediate 2 2,
  row (.store .y) .absolute 3 4,
  row (.store .a) .absolute 3 4,
  row (.store .x) .absolute 3 4,
  row (.skip .sax) .absolute 3 4,

  row (.branch .bcc) .relative 2 2,
  row (.store .a) .indirectIndexed 2 6,
  row (.skip .kil) .implied 1 2,
  row (.skip .ahx) .indirectIndexed 2 6,
  row (.store .y) .zeroPageX 2 4,
  row (.store .a) .zeroPageX 2 4,
  row (.store .x) .zeroPageY 2 4,
  row (.skip .sax) .zeroPageY 2 4,
  row (.transfer .tya) .implied 1 2,
  row (.store .a) .absoluteY 3 5,
  row (.transfer .txs) .implied 1 2,
  row (.skip .tas) .absoluteY 3 5,
  row (.skip .shy) .absoluteX 3 5,
  row (.store .a) .absoluteX 3 5,
  row (.skip .shx) .absoluteY 3 5,
  row (.skip .ahx) .absoluteY 3 5,

  row (.load .y) .immediate 2 2,
  row (.load .a) .indexedIndirect 2 6,
  row (.load .x) .immediate 2 2,
  row (.skip .lax) .indexedIndirect 2 6,
  row (.load .y) .zeroPage 2 3,
  row (.load .a) .zeroPage 2 3,
  row (.load .x) .zeroPage 2 3,
  row (.skip .lax) .zeroPage 2 3,
  row (.transfer .tay) .implied 1 2,
  row (.load .a) .immediate 2 2,
  row (.transfer .tax) .implied 1 2,
  row (.skip .lxa) .immediate 2 2,
  row (.load .y) .absolute 3 4,
  row (.load .a) .absolute 3 4,
  row (.load .x) .absolute 3 4,
  row (.skip .lax) .absolute 3 4,

  row (.branch .bcs) .relative 2 2,
  paged (.load .a) .indirectIndexed 2 5,
  row (.skip .kil) .implied 1 2,
  paged (.skip .lax) .indirectIndexed 2 5,
  row (.load .y) .zeroPageX 2 4,
  row (.load .a) .zeroPageX 2 4,
  row (.load .x) .zeroPageY 2 4,
  row (.skip .lax) .zeroPageY 2 4,
  row (.flag .clv) .implied 1 2,
  paged (.load .a) .absoluteY 3 4,
  row (.transfer .tsx) .implied 1 2,
  paged (.skip .las) .absoluteY 3 4,
  paged (.load .y) .absoluteX 3 4,
  paged (.load .a) .absoluteX 3 4,
  paged (.load .x) .absoluteY 3 4,
  paged (.skip .lax) .absoluteY 3 4,

  row (.compare .y) .immediate 2 2,
  row (.compare .a) .indexedIndirect 2 6,
  row (.skip .skb) .immediate 2 2,
  row (.skip .dcp) .indexedIndirect 2 8,
  row (.compare .y) .zeroPage 2 3,
  row (.compare .a) .zeroPage 2 3,
  row .decrementMemory .zeroPage 2 5,
  row (.skip .dcp) .zeroPage 2 5,
  row (.increment .y) .implied 1 2,
  row (.compare .a) .immediate 2 2,
  row (.decrement .x) .implied 1 2,
  row (.skip .axs) .immediate 2 2,
  row (.compare .y) .absolute 3 4,
  row (.compare .a) .absolute 3 4,
  row .decrementMemory .absolute 3 6,
  row (.skip .dcp) .absolute 3 6,

  row (.branch .bne) .relative 2 2,
  paged (.compare .a) .indirectIndexed 2 5,
  row (.skip .kil) .implied 1 2,
  row (.skip .dcp) .indirectIndexed 2 8,
  row (.skip .ign) .zeroPageX 2 4,
  row (.compare .a) .zeroPageX 2 4,
  row .decrementMemory .zeroPageX 2 6,
  row (.skip .dcp) .zeroPageX 2 6,
  row (.flag .cld) .implied 1 2,
  paged (.compare .a) .absoluteY 3 4,
  aliased .nop .implied 1 2,
  row (.skip .dcp) .absoluteY 3 7,
  paged (.skip .ign) .absoluteX 3 4,
  paged (.compare .a) .absoluteX 3 4,
  row .decrementMemory .absoluteX 3 7,
  row (.skip .dcp) .absoluteX 3 7,

  row (.compare .x) .immediate 2 2,
  row .sbc .indexedIndirect 2 6,
  row (.skip .skb) .immediate 2 2,
  row (.skip .isb) .indexedIndirect 2 8,
  row (.compare .x) .zeroPage 2 3,
  row .sbc .zeroPage 2 3,
  row .incrementMemory .zeroPage 2 5,
  row (.skip .isb) .zeroPage 2 5,
  row (.increment .x) .implied 1 2,
  row .sbc .immediate 2 2,
  row .nop .implied 1 2,
  aliased .sbc .immediate 2 2,
  row (.compare .x) .absolute 3 4,
  row .sbc .absolute 3 4,
  row .incrementMemory .absolute 3 6,
  row (.skip .isb) .absolute 3 6,

  row (.branch .beq) .relative 2 2,
  paged .sbc .indirectIndexed 2 5,
  row (.skip .kil) .implied 1 2,
  row (.skip .isb) .indirectIndexed 2 8,
  row (.skip .ign) .zeroPageX 2 4,
  row .sbc .zeroPageX 2 4,
  row .incrementMemory .zeroPageX 2 6,
  row (.skip .isb) .zeroPageX 2 6,
  row (.flag .sed) .implied 1 2,
  paged .sbc .absoluteY 3 4,
  aliased .nop .implied 1 2,
  row (.skip .isb) .absoluteY 3 7,
  paged (.skip .ign) .absoluteX 3 4,
  paged .sbc .absoluteX 3 4,
  row .incrementMemory .absoluteX 3 7,
  row (.skip .isb) .absoluteX 3 7]

/-- The row of an opcode byte. -/
def decode (v : UInt8) : Opcode := table.get ⟨v.toNat, v.toNat_lt⟩

/-- What holds of every row of the table holds of whatever is decoded. -/
theorem forall_decode {P : Opcode → Prop} (h : ∀ o ∈ table.toList, P o) (v : UInt8) :
    P (decode v) := by
  apply h
  simp [decode, Vector.get, Vector.toList]

/-- What the rows of the table give in order is what a function of the byte gives. -/
theorem apply_decode {α : Type} {f : Opcode → α} {g : UInt8 → α}
    (h : table.toList.map f = (List.range 256).map fun n => g (UInt8.ofNat n)) (v : UInt8) :
    f (decode v) = g v := by
  have hv := congrArg (·[v.toNat]?) h
  simpa [decode, Vector.get, Vector.toList, v.toNat_lt] using hv

end Opcode

end Mos6502
