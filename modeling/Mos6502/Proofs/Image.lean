import Mos6502.Proofs.Cells
import Mos6502.Proofs.Transcript

/-!
# Rebuilding a machine from its image

An image lists the bytes of all 65536 addresses. Loading it reproduces the memory, although four
addresses name each cell of RAM and the last of them wins. The machine is all that execution and the
answers depend on: the totals and the published context never feed back, so a processor with the
same machine behaves alike ever after, with a constant difference of the totals.
-/

namespace Mos6502

namespace Memory

/-- The bytes at all addresses in order. -/
def image (m : Memory) : List UInt8 := (List.range size).map fun i => m.get (UInt16.ofNat i)

/-- Storing the byte that is there changes nothing. -/
theorem set_get_self (m : Memory) (a : UInt16) : m.set a (m.get a) = m := by
  apply ext
  intro b
  rw [get_set]
  split
  · rename_i hcell
    exact m.get_congr hcell
  · rfl

theorem storeAll_of_copies {m : Memory} {ws : List (UInt16 × UInt8)}
    (h : ∀ w ∈ ws, w.2 = m.get w.1) : m.storeAll ws = m := by
  induction ws with
  | nil => rfl
  | cons w ws ih =>
    obtain ⟨hw, hws⟩ := List.forall_mem_cons.mp h
    rw [storeAll_cons, hw, set_get_self, ih hws]

/-- Loading an image stores every byte where it was read. -/
theorem mem_loadStores_image {m : Memory} {w : UInt16 × UInt8} :
    w ∈ loadStores 0 m.image ↔ w.2 = m.get w.1 := by
  rw [loadStores_eq_mapIdx, List.mem_mapIdx]
  constructor
  · rintro ⟨i, hi, rfl⟩
    simp [image]
  · intro hw
    have hlt : w.1.toNat < m.image.length := by
      have := w.1.toNat_lt
      simp only [image, List.length_map, List.length_range, size]
      omega
    refine ⟨w.1.toNat, hlt, ?_⟩
    simp [image, ← hw]

/-- An image loaded over any memory gives the memory of which it was taken. -/
theorem load_image (n m : Memory) : n.load 0 m.image = m := by
  apply ext
  intro a
  have hcopies : m.storeAll (loadStores 0 m.image) = m :=
    storeAll_of_copies fun w hw => mem_loadStores_image.mp hw
  have hnamed : cell a ∈ cells (loadStores 0 m.image) :=
    List.mem_map.mpr ⟨(a, m.get a), mem_loadStores_image.mpr rfl, rfl⟩
  rw [load_eq_storeAll, get_storeAll_congr (.inl hnamed), hcopies]

end Memory

namespace Cpu

variable {c d : Cpu}

/-- The answers along a history. -/
def replies (c : Cpu) : List Action → List Reply
  | [] => []
  | a :: history => (c.act a).value :: (c.act a).cpu.replies history

/-- A strict step answers and acts on the machine alone. -/
theorem tryStep_congr (h : d.machine = c.machine) :
    d.tryStep.value = c.tryStep.value ∧ d.tryStep.cpu.machine = c.tryStep.cpu.machine := by
  have hstate : d.state = c.state := congrArg Machine.state h
  cases hc : c.state.halted with
  | true =>
    rw [tryStep_of_halted hc, tryStep_of_halted (hstate ▸ hc), hstate]
    exact ⟨rfl, h⟩
  | false =>
    by_cases hs : c.machine.Stuck
    · rw [tryStep_of_stuck hc hs, tryStep_of_stuck (hstate ▸ hc) (h ▸ hs)]
      simp only [refuse, refusal, halt, onState, memory, state, h, and_self]
    · rw [tryStep_of_not_stuck hc hs, tryStep_of_not_stuck (hstate ▸ hc) (h ▸ hs)]
      simp only [Outcome.map, step, h, and_self]

theorem run_congr (h : d.machine = c.machine) (n : Nat) :
    (d.run n).value = (c.run n).value ∧ (d.run n).cpu.machine = (c.run n).cpu.machine := by
  induction n generalizing c d with
  | zero => exact ⟨rfl, h⟩
  | succ n ih =>
    obtain ⟨hvalue, hmachine⟩ := tryStep_congr h
    cases ht : c.tryStep.value with
    | error f =>
      rw [run_succ_of_error ht, run_succ_of_error (hvalue.trans ht)]
      exact ⟨rfl, hmachine⟩
    | ok k =>
      obtain ⟨hrest, hlast⟩ := ih hmachine
      rw [run_succ_of_ok ht, run_succ_of_ok (hvalue.trans ht), hrest]
      exact ⟨rfl, hlast⟩

/-- Equal machines answer an action alike and stay equal. -/
theorem act_congr (h : d.machine = c.machine) (a : Action) :
    (d.act a).value = (c.act a).value ∧ (d.act a).cpu.machine = (c.act a).cpu.machine := by
  cases a with
  | tryStep =>
    obtain ⟨hvalue, hmachine⟩ := tryStep_congr h
    exact ⟨congrArg Reply.ofStep hvalue, hmachine⟩
  | run n =>
    obtain ⟨hvalue, hmachine⟩ := run_congr h n
    exact ⟨congrArg Reply.ofRun hvalue, hmachine⟩
  | _ => simp only [act, Outcome.quiet, Outcome.map, onState, onMemory, request, reset, step, h,
      and_self]

theorem acts_congr (h : d.machine = c.machine) (history : List Action) :
    d.replies history = c.replies history ∧
      (d.acts history).machine = (c.acts history).machine := by
  induction history generalizing c d with
  | nil => exact ⟨rfl, h⟩
  | cons a history ih =>
    obtain ⟨hvalue, hmachine⟩ := act_congr h a
    obtain ⟨hreplies, hlast⟩ := ih hmachine
    rw [replies, replies, hvalue, hreplies]
    exact ⟨rfl, hlast⟩

/-- The machine with nothing published and nothing counted. -/
def bare (c : Cpu) : Cpu := { zero with machine := c.machine }

theorem bare_eq (h : d.machine = c.machine) : d.bare = c.bare := by
  rw [bare, bare, h]

end Cpu

namespace Moment

variable {x : Moment}

/-- The moment as the machine lived it. -/
def bare (x : Moment) : Moment := ⟨x.before.bare, x.action⟩

/-- The context that the step published, if one executed. -/
def published (x : Moment) : Option Context := x.ran.map x.before.machine.context

@[simp] theorem ran_bare (x : Moment) : x.bare.ran = x.ran := rfl

@[simp] theorem cost_bare (x : Moment) : x.bare.cost = x.cost := rfl

@[simp] theorem passedOver_bare (x : Moment) : x.bare.passedOver = x.passedOver := rfl

@[simp] theorem published_bare (x : Moment) : x.bare.published = x.published := rfl

/-- Only a step that executes publishes a context. -/
theorem context_after (hrun : ∀ n, x.action ≠ .run n) :
    x.after.context = x.published.getD x.before.context := by
  cases hran : x.ran with
  | some act =>
    have hnext := (act_of_ran hran).1
    rw [after_of_ran hran, published, hran, ← hnext]
    rfl
  | none =>
    rw [published, hran]
    rcases x with ⟨c, a⟩
    cases a with
    | step => cases hran
    | tryStep => rcases after_of_tryStep rfl hran with h | h <;> rw [h] <;> rfl
    | run n => exact absurd rfl (hrun n)
    | _ => rfl

end Moment

/-- The context at the end is the last that was published. -/
theorem Linked.context {c d : Cpu} {xs : List Moment} (h : Linked c xs d)
    (hrun : ∀ x ∈ xs, ∀ n, x.action ≠ .run n) :
    d.context = (xs.filterMap Moment.published).getLastD c.context := by
  induction xs generalizing c with
  | nil =>
    obtain rfl : c = d := h
    rfl
  | cons x xs ih =>
    obtain ⟨rfl, hrest⟩ := h
    have hfirst := Moment.context_after (hrun x (by simp))
    rw [ih hrest fun y hy => hrun y (by simp [hy]), hfirst, List.filterMap_cons]
    cases x.published with
    | none => rfl
    | some k => rw [List.getLastD_cons]; rfl

namespace Cpu

variable {c d : Cpu}

/-- Equal machines live through the same moments. -/
theorem runMoments_congr (h : d.machine = c.machine) (n : Nat) :
    (d.runMoments n).map Moment.bare = (c.runMoments n).map Moment.bare := by
  induction n generalizing c d with
  | zero => rfl
  | succ n ih =>
    obtain ⟨hvalue, hmachine⟩ := tryStep_congr h
    rw [runMoments, runMoments, List.map_cons, List.map_cons, hvalue, Moment.bare, Moment.bare,
      bare_eq h]
    cases c.tryStep.value with
    | error f => rfl
    | ok k => exact congrArg _ (ih hmachine)

theorem life_congr (h : d.machine = c.machine) (history : List Action) :
    (d.life history).map Moment.bare = (c.life history).map Moment.bare := by
  induction history generalizing c d with
  | nil => rfl
  | cons a history ih =>
    have hrest := ih (act_congr h a).2
    have hfirst : (d.moments a).map Moment.bare = (c.moments a).map Moment.bare := by
      cases a with
      | run limit => exact runMoments_congr h limit
      | _ => simp only [moments, List.map_cons, List.map_nil, Moment.bare, bare_eq h]
    rw [life, life, List.map_append, List.map_append, hfirst, hrest]

/-- Along the history `d` cannot be told from `c`: it answers alike and has the same registers and
bytes at the end. The totals keep their difference, and the contexts meet in the first step that
executes. -/
structure Follows (d c : Cpu) (history : List Action) : Prop where
  replies : d.replies history = c.replies history
  state : (d.acts history).state = (c.acts history).state
  memory : ∀ a, (d.acts history).memory.get a = (c.acts history).memory.get a
  cycles : (d.acts history).cycles - (c.acts history).cycles = d.cycles - c.cycles
  unimplemented :
    (d.acts history).unimplemented - (c.acts history).unimplemented =
      d.unimplemented - c.unimplemented
  context : (∃ x ∈ c.life history, x.ran.isSome) →
    (d.acts history).context = (c.acts history).context

/-- Both totals grow by the same numbers. -/
theorem totals_acts_congr (h : d.machine = c.machine) (history : List Action) :
    ∃ m n, ((c.acts history).cycles = c.cycles + m ∧
        (c.acts history).unimplemented = c.unimplemented + n) ∧
      (d.acts history).cycles = d.cycles + m ∧
        (d.acts history).unimplemented = d.unimplemented + n := by
  have hlife := life_congr h history
  have hcost : (d.life history).map Moment.cost = (c.life history).map Moment.cost := by
    simpa [Function.comp_def] using congrArg (List.map Moment.cost) hlife
  have hcount : (d.life history).countP Moment.passedOver =
      (c.life history).countP Moment.passedOver := by
    simpa [List.countP_map, Function.comp_def] using congrArg (List.countP Moment.passedOver) hlife
  have hc := (linked_life c history).totals fun x hx => action_ne_run hx
  have hd := (linked_life d history).totals fun x hx => action_ne_run hx
  rw [hcost, hcount] at hd
  exact ⟨_, _, hc, hd⟩

/-- After a step that executes the contexts are the same. -/
theorem context_acts_congr (h : d.machine = c.machine) {history : List Action}
    (hran : ∃ x ∈ c.life history, x.ran.isSome) :
    (d.acts history).context = (c.acts history).context := by
  have hpublished : (d.life history).filterMap Moment.published =
      (c.life history).filterMap Moment.published := by
    simpa [List.filterMap_map, Function.comp_def] using
      congrArg (List.filterMap Moment.published) (life_congr h history)
  have hsome : (c.life history).filterMap Moment.published ≠ [] := by
    obtain ⟨x, hx, hact⟩ := hran
    obtain ⟨act, hact⟩ := Option.isSome_iff_exists.mp hact
    exact List.ne_nil_of_mem (List.mem_filterMap.mpr ⟨x, hx, by rw [Moment.published, hact]; rfl⟩)
  rw [(linked_life d history).context fun x hx => action_ne_run hx,
    (linked_life c history).context fun x hx => action_ne_run hx, hpublished]
  cases hk : (c.life history).filterMap Moment.published with
  | nil => exact absurd hk hsome
  | cons k ks => rw [List.getLastD_cons, List.getLastD_cons]

/-- Equal machines cannot be told apart. -/
theorem follows (h : d.machine = c.machine) (history : List Action) : d.Follows c history := by
  obtain ⟨hreplies, hmachine⟩ := acts_congr h history
  obtain ⟨m, n, ⟨hcycles, hcount⟩, hcycles', hcount'⟩ := totals_acts_congr h history
  constructor
  · exact hreplies
  · exact congrArg Machine.state hmachine
  · intro a
    exact congrArg (·.memory.get a) hmachine
  · rw [hcycles, hcycles']
    grind
  · rw [hcount, hcount']
    grind
  · exact context_acts_congr h

/-- A new processor with the image of the memory loaded. -/
def rebuilt (c : Cpu) : Cpu := zero.onMemory (·.load 0 c.memory.image)

/-- The setters that copy the registers. -/
def registerSetters (s : State) : List Action :=
  [.setA s.a, .setX s.x, .setY s.y, .setSp s.sp, .setPc s.pc, .setStatus s.status.toByte]

theorem memory_rebuilt (c : Cpu) : c.rebuilt.memory = c.memory := by
  rw [rebuilt, onMemory_memory, Memory.load_image]

/-- The setters copy everything but the latch and the halted mark. -/
theorem machine_acts_registerSetters (d : Cpu) (s : State) :
    (d.acts (registerSetters s)).machine =
      ⟨{ s with pending := d.state.pending, halted := d.state.halted }, d.memory⟩ := by
  simp only [registerSetters, acts, act, Outcome.quiet, onState, Machine.onState,
    Status.ofByte_toByte]

/-- A machine can be rebuilt from its image. A new processor with the image loaded shows the same
bytes at all addresses, and from a reset on it cannot be told from the old one; nor can it from the
moment on at which the registers are copied, if no request waits and the old one is not halted. -/
theorem rebuilt_follows (c : Cpu) (history : List Action) :
    (∀ a, c.rebuilt.memory.get a = c.memory.get a) ∧
    c.rebuilt.reset.cpu.Follows c.reset.cpu history ∧
    (c.state.pending = none → c.state.halted = false →
      (c.rebuilt.acts (registerSetters c.state)).Follows c history) := by
  have hmemory := c.memory_rebuilt
  refine ⟨fun a => by rw [hmemory], ?_, ?_⟩
  · apply follows
    change (⟨.reset c.rebuilt.memory, c.rebuilt.memory⟩ : Machine) = ⟨.reset c.memory, c.memory⟩
    rw [hmemory]
  · intro hpending hhalted
    apply follows
    have hlatch : c.rebuilt.state.pending = c.state.pending := hpending.symm
    have hmark : c.rebuilt.state.halted = c.state.halted := hhalted.symm
    rw [machine_acts_registerSetters, hmemory, hlatch, hmark]

/-- INX, INX and KIL, the second byte stored through a mirror, after the first instruction. -/
def counting : Cpu := zero.acts [.load 0 [0xE8, 0x00, 0x02], .store 0x1801 0xE8, .step]

theorem rebuilt_follows_counting :
    counting.state.pending = none ∧ counting.state.halted = false ∧
      (counting.rebuilt.acts (registerSetters counting.state)).replies [.step, .tryStep] =
        [.cycles 2, .fault (.unassignedOpcode 0x02 2)] ∧
      ((counting.rebuilt.acts (registerSetters counting.state)).acts [.step]).context =
        ⟨1, 0, .implied⟩ := by
  have hpending : counting.state.pending = none := by decide +kernel
  have hhalted : counting.state.halted = false := by decide +kernel
  have htwo := (rebuilt_follows counting [.step, .tryStep]).2.2 hpending hhalted
  have hone := (rebuilt_follows counting [.step]).2.2 hpending hhalted
  refine ⟨hpending, hhalted, htwo.replies.trans ?_, (hone.context ?_).trans ?_⟩
  · decide +kernel
  · exact ⟨⟨counting, .step⟩, .head _, rfl⟩
  · decide +kernel

end Cpu

end Mos6502
