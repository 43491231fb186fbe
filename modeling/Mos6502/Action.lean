import Mos6502.Cpu

/-!
# Actions

Everything that can be done to a processor from outside, as data, so that a history is a list.
Setting a register, a flag or memory reports nothing and leaves the totals alone.
-/

namespace Mos6502

inductive Action where
  | setA (v : UInt8)
  | setX (v : UInt8)
  | setY (v : UInt8)
  | setSp (v : UInt8)
  | setPc (w : UInt16)
  | setStatus (v : UInt8)
  /-- Set or clear every flag of the mask. -/
  | setFlags (mask : UInt8) (on : Bool)
  | load (start : UInt16) (bytes : List UInt8)
  | store (a : UInt16) (v : UInt8)
  | clearMemory
  | request (i : Interrupt)
  | reset
  | step
  | tryStep
  | run (limit : Nat)
  deriving DecidableEq, Repr

/-- What an action answers. -/
inductive Reply where
  | done
  | cycles (n : UInt64)
  | fault (f : Fault)
  deriving DecidableEq, Repr

def Reply.ofStep : Except Fault Nat → Reply
  | .ok n => cycles (UInt64.ofNat n)
  | .error f => fault f

def Reply.ofRun : Except Fault UInt64 → Reply
  | .ok n => cycles n
  | .error f => fault f

/-- Apply a function to the value alone. -/
def Outcome.map {α β : Type} (f : α → β) (o : Outcome α) : Outcome β := ⟨f o.value, o.cpu, o.events⟩

/-- The outcome of an operation that neither answers nor reports. -/
def Outcome.quiet (c : Cpu) : Outcome Reply := ⟨.done, c, []⟩

def Cpu.act (c : Cpu) : Action → Outcome Reply
  | .setA v => .quiet (c.onState ({ · with a := v }))
  | .setX v => .quiet (c.onState ({ · with x := v }))
  | .setY v => .quiet (c.onState ({ · with y := v }))
  | .setSp v => .quiet (c.onState ({ · with sp := v }))
  | .setPc w => .quiet (c.onState ({ · with pc := w }))
  | .setStatus v => .quiet (c.onState ({ · with status := .ofByte v }))
  | .setFlags mask on =>
    .quiet (c.onState fun s => { s with status := s.status.assign mask on })
  | .load start bytes => .quiet (c.onMemory (·.load start bytes))
  | .store a v => .quiet (c.onMemory (·.set a v))
  | .clearMemory => .quiet (c.onMemory fun _ => .zero)
  | .request i => .quiet (c.request i)
  | .reset => c.reset.map fun _ => .done
  | .step => c.step.map fun n => .cycles (UInt64.ofNat n)
  | .tryStep => c.tryStep.map .ofStep
  | .run limit => (c.run limit).map .ofRun

end Mos6502
