import Mos6502.Proofs.History
import Mos6502.Proofs.Traps

/-!
# Requests between two steps

What waits in the latch after a list of requests depends on which requests are in the list, and not
on their order or on how often each was made. An NMI among them is what the next step enters.
-/

namespace Mos6502

namespace State

def withPending (s : State) (p : Option Interrupt) : State := { s with pending := p }

/-- What waits in the latch after the requests: an NMI if there was one, else an IRQ that waited
before or came while interrupts were enabled. -/
def latched (s : State) (requests : List Interrupt) : Option Interrupt :=
  if s.pending = some .nmi ∨ .nmi ∈ requests then some .nmi
  else if s.pending = some .irq ∨ (s.status.irqDisable = false ∧ .irq ∈ requests) then some .irq
  else none

/-- A request touches nothing but what a new content of the latch replaces. -/
theorem withPending_request (s : State) (i : Interrupt) (p : Option Interrupt) :
    (s.request i).withPending p = s.withPending p := by
  rw [request_eq]
  rfl

@[simp] theorem latched_nil (s : State) : s.latched [] = s.pending := by
  rcases h : s.pending with _ | _ | _ <;> simp [latched, h]

/-- The first of the requests counts as if it had waited before the others came. -/
theorem latched_cons (s : State) (i : Interrupt) (requests : List Interrupt) :
    s.latched (i :: requests) = (s.request i).latched requests := by
  cases i with
  | nmi => simp [latched, request]
  | irq =>
    rcases hp : s.pending with _ | _ | _ <;> cases hi : s.status.irqDisable <;>
      simp [latched, request, hp, hi]

/-- Order and repetition do not matter. -/
theorem latched_congr (s : State) {ks ls : List Interrupt} (h : ∀ i, i ∈ ks ↔ i ∈ ls) :
    s.latched ks = s.latched ls := by
  simp only [latched, h]

/-- What the next step enters: an IRQ that waits is held back while interrupts are disabled. -/
theorem serviceable_withPending_latched (s : State) (requests : List Interrupt) :
    (s.withPending (s.latched requests)).serviceable =
      if s.pending = some .nmi ∨ .nmi ∈ requests then some .nmi
      else if s.status.irqDisable = false ∧ (s.pending = some .irq ∨ .irq ∈ requests) then
        some .irq
      else none := by
  by_cases hnmi : s.pending = some .nmi ∨ .nmi ∈ requests
  · simp [latched, serviceable, withPending, hnmi]
  · simp only [latched, serviceable, withPending, if_neg hnmi]
    cases hmask : s.status.irqDisable with
    | true =>
      -- a masked IRQ stays, and none of the requests can have added one
      by_cases hirq : s.pending = some .irq <;> simp [hirq]
    | false =>
      by_cases hirq : s.pending = some .irq ∨ .irq ∈ requests <;> simp [hirq]

end State

namespace Cpu

/-- Requests make of the processor what one change of the latch does. -/
theorem acts_requests (c : Cpu) (requests : List Interrupt) :
    c.acts (requests.map .request) = c.onState (·.withPending (c.state.latched requests)) := by
  induction requests generalizing c with
  | nil =>
    rw [State.latched_nil]
    rfl
  | cons i requests ih =>
    have hfirst : (c.act (.request i)).cpu.state = c.state.request i := rfl
    rw [List.map_cons, acts, ih, hfirst, State.latched_cons]
    exact congrArg (fun s => c.onState fun _ => s) (c.state.withPending_request i _)

/-- Requests made between two steps commute. However many there are, and in whatever order, they
change the latch alone, and to what the kinds among them say. So any other requests of the same
kinds, a rearrangement or a repetition of these, leave the same processor, and the next step goes on
where the same vector points; an NMI among them is entered whatever IRQs came with it. -/
theorem requests_commute (c : Cpu) (requests : List Interrupt) :
    let d := c.acts (requests.map .request)
    d = c.onState (·.withPending (c.state.latched requests)) ∧
    (∀ others : List Interrupt, (∀ i, i ∈ others ↔ i ∈ requests) →
      c.acts (others.map .request) = d) ∧
    d.machine.next =
      (if c.state.pending = some .nmi ∨ .nmi ∈ requests then .entry .nmi
      else if c.state.status.irqDisable = false ∧
          (c.state.pending = some .irq ∨ .irq ∈ requests) then .entry .irq
      else .instruction c.machine.fetch) ∧
    ∀ i, d.machine.next = .entry i →
      d.step.cpu.state.pc.toNat = (Trap.hardware i).target c.memory := by
  intro d
  have hd : d = c.onState (·.withPending (c.state.latched requests)) := c.acts_requests requests
  have hstate : d.machine.state = c.state.withPending (c.state.latched requests) := by rw [hd]; rfl
  have hfetch : d.machine.fetch = c.machine.fetch := by rw [hd]; rfl
  have hmemory : d.machine.memory = c.memory := by rw [hd]; rfl
  refine ⟨hd, ?_, ?_, ?_⟩
  · intro others hsame
    rw [hd, acts_requests, State.latched_congr _ hsame]
  · rw [Machine.next, hstate, State.serviceable_withPending_latched, hfetch]
    by_cases hnmi : c.state.pending = some .nmi ∨ .nmi ∈ requests
    · simp only [if_pos hnmi]
    · by_cases hirq : c.state.status.irqDisable = false ∧
          (c.state.pending = some .irq ∨ .irq ∈ requests)
      · simp only [if_neg hnmi, if_pos hirq]
      · simp only [if_neg hnmi, if_neg hirq]
  · intro i hi
    rw [← hmemory]
    cases hs : d.machine.state.serviceable with
    | none => simp [Machine.next_of_not_serviceable hs] at hi
    | some j =>
      obtain rfl : j = i := by simpa [Machine.next_of_serviceable hs] using hi
      rw [state, machine_step, Machine.step_of_serviceable hs]
      exact Machine.toNat_pc_enter _ (.hardware j) false

/-- Interrupts are enabled, and the vector of an NMI points at $1234. -/
def idle : Cpu := zero.onMemory (·.load 0xFFFA [0x34, 0x12])

theorem requests_commute_idle :
    (∀ i, i ∈ [Interrupt.nmi, .nmi, .irq] ↔ i ∈ [Interrupt.irq, .nmi, .irq]) ∧
      idle.acts ([.nmi, .nmi, .irq].map .request) = idle.acts ([.irq, .nmi, .irq].map .request) ∧
      (idle.acts ([.irq, .nmi, .irq].map .request)).machine.next = .entry .nmi ∧
      (idle.acts ([.irq, .nmi, .irq].map .request)).step.cpu.state.pc = 0x1234 := by
  have hsame : ∀ i, i ∈ [Interrupt.nmi, .nmi, .irq] ↔ i ∈ [Interrupt.irq, .nmi, .irq] := by
    intro i
    cases i <;> decide
  obtain ⟨-, hothers, hnext, hpc⟩ := requests_commute idle [.irq, .nmi, .irq]
  have hnmi := hnext.trans (if_pos (.inr (by decide)))
  refine ⟨hsame, hothers _ hsame, hnmi, UInt16.toNat_inj.mp ((hpc .nmi hnmi).trans ?_)⟩
  decide +kernel

end Cpu

end Mos6502
