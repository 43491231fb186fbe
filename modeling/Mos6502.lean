import Mos6502.Main
import Mos6502.Proofs.Calls
import Mos6502.Proofs.Latch
import Mos6502.Proofs.Traps
import Mos6502.Proofs.Timing
import Mos6502.Proofs.Successor
import Mos6502.Proofs.Dependence
import Mos6502.Proofs.LiveStatus
import Mos6502.Proofs.InertFlags
import Mos6502.Proofs.Cells
import Mos6502.Proofs.Transcript
import Mos6502.Proofs.Halting
import Mos6502.Proofs.Image
import Mos6502.Proofs.AccumulatorGroup
import Mos6502.Proofs.ModifyGroup
import Mos6502.Proofs.RegisterGroup
import Mos6502.Proofs.LittleEndian
import Mos6502.Proofs.Multiprecision
import Mos6502.Proofs.LongRotation
import Mos6502.Proofs.Resolution
import Mos6502.Proofs.BulkLoad
import Mos6502.Proofs.Requests
import Mos6502.Proofs.Skips
import Mos6502.Proofs.StackOrder
import Mos6502.Proofs.Readback
import Mos6502.Proofs.CountingLoop
