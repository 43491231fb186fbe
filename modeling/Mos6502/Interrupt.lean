/-!
# Interrupts

The two requests a device can make and the vectors through which the processor is entered: each is
the address of a word that holds the new program counter.
-/

namespace Mos6502

inductive Interrupt where
  | nmi | irq
  deriving DecidableEq, Repr

def nmiVector : UInt16 := 0xFFFA

def resetVector : UInt16 := 0xFFFC

/-- The vector of IRQ and of the BRK instruction. -/
def irqVector : UInt16 := 0xFFFE

def Interrupt.vector : Interrupt → UInt16
  | nmi => nmiVector
  | irq => irqVector

end Mos6502
