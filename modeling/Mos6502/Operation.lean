import Mos6502.Status

/-!
# Operations

What an instruction does, apart from where its operand lies. Instructions of one shape are one
operation with a parameter; undocumented instructions that have no effect are `Operation.skip`.
-/

namespace Mos6502

/-- The registers that can be loaded, stored and compared. -/
inductive Register where
  | a | x | y
  deriving DecidableEq, Repr

/-- The registers that index addresses and count. -/
inductive Index where
  | x | y
  deriving DecidableEq, Repr

inductive Transfer where
  | tax | tay | txa | tya | tsx | txs
  deriving DecidableEq, Repr

inductive Logic where
  | and | ora | eor
  deriving DecidableEq, Repr

inductive Shift where
  | asl | lsr | rol | ror
  deriving DecidableEq, Repr

inductive Branch where
  | bpl | bmi | bvc | bvs | bcc | bcs | bne | beq
  deriving DecidableEq, Repr

inductive FlagChange where
  | clc | sec | cli | sei | clv | cld | sed
  deriving DecidableEq, Repr

/-- Undocumented instructions, all of which are skipped over. -/
inductive Undocumented where
  | slo | rla | sre | rra | sax | lax | dcp | isb | ign | skb
  | anc | alr | arr | xaa | lxa | axs | las | ahx | shx | shy | tas | kil
  deriving DecidableEq, Repr

inductive Operation where
  | load (r : Register)
  | store (r : Register)
  | compare (r : Register)
  | transfer (t : Transfer)
  | logic (l : Logic)
  | bit
  | adc
  | sbc
  | increment (i : Index)
  | decrement (i : Index)
  | incrementMemory
  | decrementMemory
  | shift (s : Shift)
  | pha
  | php
  | pla
  | plp
  | jump
  | call
  | ret
  | rti
  | brk
  | branch (b : Branch)
  | flag (c : FlagChange)
  | nop
  | skip (u : Undocumented)
  deriving DecidableEq, Repr

namespace Branch

/-- The flag that a branch tests. -/
def flag : Branch → Flag
  | bpl | bmi => .negative
  | bvc | bvs => .overflow
  | bcc | bcs => .carry
  | bne | beq => .zero

/-- The value of the flag on which the branch is taken. -/
def sense : Branch → Bool
  | bpl | bvc | bcc | bne => false
  | bmi | bvs | bcs | beq => true

def taken (b : Branch) (p : Status) : Bool := p.get b.flag == b.sense

end Branch

namespace FlagChange

def flag : FlagChange → Flag
  | clc | sec => .carry
  | cli | sei => .irqDisable
  | clv => .overflow
  | cld | sed => .decimal

def value : FlagChange → Bool
  | clc | cli | clv | cld => false
  | sec | sei | sed => true

end FlagChange

namespace Shift

/-- The byte that comes out when `carry` is shifted in; ASL and LSR shift in a 0. -/
def result (s : Shift) (carry : Bool) (v : UInt8) : UInt8 :=
  match s with
  | asl => 2 * v
  | lsr => v / 2
  | rol => 2 * v + carry.toUInt8
  | ror => v / 2 + 128 * carry.toUInt8

/-- The bit that is shifted out. -/
def out (s : Shift) (v : UInt8) : Bool :=
  match s with
  | asl | rol => bit 7 v
  | lsr | ror => bit 0 v

end Shift

namespace Undocumented

/-- The instructions that count as stubs: strict execution skips these and refuses the others. -/
def isStub : Undocumented → Bool
  | slo | rla | sre | rra | sax | lax | dcp | isb | ign | skb => true
  | _ => false

def mnemonic : Undocumented → String
  | slo => "SLO"
  | rla => "RLA"
  | sre => "SRE"
  | rra => "RRA"
  | sax => "SAX"
  | lax => "LAX"
  | dcp => "DCP"
  | isb => "ISB"
  | ign => "IGN"
  | skb => "SKB"
  | anc => "ANC"
  | alr => "ALR"
  | arr => "ARR"
  | xaa => "XAA"
  | lxa => "LXA"
  | axs => "AXS"
  | las => "LAS"
  | ahx => "AHX"
  | shx => "SHX"
  | shy => "SHY"
  | tas => "TAS"
  | kil => "KIL"

end Undocumented

/-- The three letters of an operation. -/
def Operation.mnemonic : Operation → String
  | load .a => "LDA"
  | load .x => "LDX"
  | load .y => "LDY"
  | store .a => "STA"
  | store .x => "STX"
  | store .y => "STY"
  | compare .a => "CMP"
  | compare .x => "CPX"
  | compare .y => "CPY"
  | transfer .tax => "TAX"
  | transfer .tay => "TAY"
  | transfer .txa => "TXA"
  | transfer .tya => "TYA"
  | transfer .tsx => "TSX"
  | transfer .txs => "TXS"
  | logic .and => "AND"
  | logic .ora => "ORA"
  | logic .eor => "EOR"
  | bit => "BIT"
  | adc => "ADC"
  | sbc => "SBC"
  | increment .x => "INX"
  | increment .y => "INY"
  | decrement .x => "DEX"
  | decrement .y => "DEY"
  | incrementMemory => "INC"
  | decrementMemory => "DEC"
  | shift .asl => "ASL"
  | shift .lsr => "LSR"
  | shift .rol => "ROL"
  | shift .ror => "ROR"
  | pha => "PHA"
  | php => "PHP"
  | pla => "PLA"
  | plp => "PLP"
  | jump => "JMP"
  | call => "JSR"
  | ret => "RTS"
  | rti => "RTI"
  | brk => "BRK"
  | branch .bpl => "BPL"
  | branch .bmi => "BMI"
  | branch .bvc => "BVC"
  | branch .bvs => "BVS"
  | branch .bcc => "BCC"
  | branch .bcs => "BCS"
  | branch .bne => "BNE"
  | branch .beq => "BEQ"
  | flag .clc => "CLC"
  | flag .sec => "SEC"
  | flag .cli => "CLI"
  | flag .sei => "SEI"
  | flag .clv => "CLV"
  | flag .cld => "CLD"
  | flag .sed => "SED"
  | nop => "NOP"
  | skip u => u.mnemonic

end Mos6502
