import Mos6502.Word

/-!
# The status register

Eight flags, each a truth value. `Status.toByte` packs them into a byte, carry lowest, and
`Status.ofByte` is its inverse. A copy pushed on the stack differs from the live register in the
break and unused bits, which tell a handler what pushed it; a pull forgets them again.
-/

namespace Mos6502

inductive Flag where
  | carry | zero | irqDisable | decimal | brk | unused | overflow | negative
  deriving DecidableEq, Repr

namespace Flag

/-- The flags from the lowest bit up. -/
def all : List Flag := [carry, zero, irqDisable, decimal, brk, unused, overflow, negative]

def mask : Flag → UInt8
  | carry => 0x01
  | zero => 0x02
  | irqDisable => 0x04
  | decimal => 0x08
  | brk => 0x10
  | unused => 0x20
  | overflow => 0x40
  | negative => 0x80

end Flag

structure Status where
  carry : Bool
  zero : Bool
  irqDisable : Bool
  decimal : Bool
  brk : Bool
  unused : Bool
  overflow : Bool
  negative : Bool
  deriving DecidableEq, Repr

namespace Status

/-- The register with every flag clear. -/
def clear : Status := ⟨false, false, false, false, false, false, false, false⟩

def get (p : Status) : Flag → Bool
  | .carry => p.carry
  | .zero => p.zero
  | .irqDisable => p.irqDisable
  | .decimal => p.decimal
  | .brk => p.brk
  | .unused => p.unused
  | .overflow => p.overflow
  | .negative => p.negative

def set (p : Status) : Flag → Bool → Status
  | .carry, b => { p with carry := b }
  | .zero, b => { p with zero := b }
  | .irqDisable, b => { p with irqDisable := b }
  | .decimal, b => { p with decimal := b }
  | .brk, b => { p with brk := b }
  | .unused, b => { p with unused := b }
  | .overflow, b => { p with overflow := b }
  | .negative, b => { p with negative := b }

def ofByte (v : UInt8) : Status :=
  ⟨bit 0 v, bit 1 v, bit 2 v, bit 3 v, bit 4 v, bit 5 v, bit 6 v, bit 7 v⟩

def toByte (p : Status) : UInt8 :=
  UInt8.ofNat (p.carry.toNat + 2 * p.zero.toNat + 4 * p.irqDisable.toNat + 8 * p.decimal.toNat +
    16 * p.brk.toNat + 32 * p.unused.toNat + 64 * p.overflow.toNat + 128 * p.negative.toNat)

/-- Some flag of the mask is set. -/
def any (p : Status) (mask : UInt8) : Bool := p.toByte &&& mask != 0

/-- Set or clear every flag of the mask. -/
def assign (p : Status) (mask : UInt8) (on : Bool) : Status :=
  ofByte (if on then p.toByte ||| mask else p.toByte &&& ~~~mask)

/-- Zero and negative as the result `v` leaves them. -/
def withResult (p : Status) (v : UInt8) : Status :=
  { p with zero := v == 0, negative := bit 7 v }

/-- The byte that PHP and BRK push (`brk` set) or that a hardware interrupt pushes (`brk` clear). -/
def pushed (p : Status) (brk : Bool) : UInt8 :=
  (if brk then { p with brk := true } else { p with brk := false, unused := true }).toByte

/-- The register after PLP or RTI pulled `v`: the break bit is dropped and the unused bit set. -/
def pulled (v : UInt8) : Status := { ofByte v with brk := false, unused := true }

@[simp] theorem ofByte_toByte (p : Status) : ofByte p.toByte = p := by
  rcases p with ⟨_ | _, _ | _, _ | _, _ | _, _ | _, _ | _, _ | _, _ | _⟩ <;> rfl

@[simp] theorem toByte_ofByte (v : UInt8) : (ofByte v).toByte = v :=
  forall_byte (P := fun v => (ofByte v).toByte = v) (by decide +kernel) v

/-- A check of the registers of all bytes is a check of all registers. -/
theorem forall_of_bytes {P : Status → Prop} (h : ∀ n : Fin 256, P (ofByte (UInt8.ofNat n)))
    (p : Status) : P p := by
  rw [← ofByte_toByte p]
  exact forall_byte (P := fun v => P (ofByte v)) h p.toByte

theorem toByte_inj {p q : Status} : p.toByte = q.toByte ↔ p = q :=
  ⟨fun h => by rw [← ofByte_toByte p, h, ofByte_toByte], fun h => by rw [h]⟩

@[simp] theorem get_set (p : Status) (f g : Flag) (b : Bool) :
    (p.set f b).get g = if f = g then b else p.get g := by
  cases f <;> cases g <;> rfl

/-- PHP and BRK push the register with the break bit set. -/
theorem pushed_true (p : Status) : p.pushed true = p.toByte ||| 0x10 :=
  forall_of_bytes (P := fun p => p.pushed true = p.toByte ||| 0x10) (by decide +kernel) p

/-- A hardware interrupt pushes the register with the unused bit set and the break bit clear. -/
theorem pushed_false (p : Status) : p.pushed false = (p.toByte ||| 0x20) &&& 0xEF :=
  forall_of_bytes (P := fun p => p.pushed false = (p.toByte ||| 0x20) &&& 0xEF)
    (by decide +kernel) p

theorem toByte_pulled (v : UInt8) : (pulled v).toByte = (v &&& 0xEF) ||| 0x20 :=
  forall_byte (P := fun v => (pulled v).toByte = (v &&& 0xEF) ||| 0x20) (by decide +kernel) v

/-- What was pushed, pulled again. -/
@[simp] theorem pulled_pushed (p : Status) (b : Bool) :
    pulled (p.pushed b) = { p with brk := false, unused := true } := by
  cases b <;> simp [pulled, pushed]

end Status

end Mos6502
