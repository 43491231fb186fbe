import Mathlib.Algebra.Order.BigOperators.Group.List
import Mathlib.Algebra.Order.Ring.Int
import Mathlib.Data.List.Infix

/-!
# Matching pushes and pulls

Brackets match in a list of pushes and pulls as they do in a text: a stretch is `Balanced` when it
closes all that it opens and nothing else. `replay` does to a list what the moves do to a stack and
stops at a byte that comes off without being on top. In moves that pass it, each byte that comes off
is the one that went on where its bracket opened, and every byte that comes off has such a bracket.
-/

namespace Mos6502

section Brackets

variable {α : Type} {gain : α → Int} {xs ys : List α}

/-- How much a list adds in all. -/
def depth (gain : α → Int) (xs : List α) : Int := (xs.map gain).sum

@[simp] theorem depth_nil : depth gain [] = 0 := rfl

@[simp] theorem depth_cons (x : α) (xs : List α) : depth gain (x :: xs) = gain x + depth gain xs := by
  simp [depth]

@[simp] theorem depth_append (xs ys : List α) :
    depth gain (xs ++ ys) = depth gain xs + depth gain ys := by
  simp [depth]

/-- What holds of the depth all along a list holds along its tail, counted from behind its head. -/
theorem depth_along_tail (P : Int → Prop) {d : Int} {x : α}
    (h : ∀ ps, ps <+: x :: xs → P (d + depth gain ps)) :
    ∀ ps, ps <+: xs → P (d + gain x + depth gain ps) := by
  intro ps hps
  have hp := h (x :: ps) (List.cons_prefix_cons.mpr ⟨rfl, hps⟩)
  rwa [depth_cons, ← Int.add_assoc] at hp

theorem depth_nonneg (h : ∀ x ∈ xs, 0 ≤ gain x) : 0 ≤ depth gain xs :=
  List.sum_nonneg (by simpa using h)

theorem depth_nonpos (h : ∀ x ∈ xs, gain x ≤ 0) : depth gain xs ≤ 0 := by
  simpa [depth] using List.sum_le_card_nsmul (xs.map gain) 0 (by simpa using h)

/-- Whatever opens in the list closes in it, and nothing else does. -/
structure Balanced (gain : α → Int) (xs : List α) : Prop where
  nonneg : ∀ ps, ps <+: xs → 0 ≤ depth gain ps
  closed : depth gain xs = 0

instance (gain : α → Int) (xs : List α) : Decidable (Balanced gain xs) :=
  decidable_of_iff ((∀ ps ∈ xs.inits, 0 ≤ depth gain ps) ∧ depth gain xs = 0)
    ⟨fun h => ⟨by simpa using h.1, h.2⟩, fun h => ⟨by simpa using h.nonneg, h.closed⟩⟩

theorem balanced_nil : Balanced gain [] where
  nonneg ps h := by
    rw [List.prefix_nil.mp h]
    exact Int.le_refl 0
  closed := rfl

theorem Balanced.append (hxs : Balanced gain xs) (hys : Balanced gain ys) :
    Balanced gain (xs ++ ys) where
  nonneg ps h := by
    rcases List.prefix_or_prefix_of_prefix h (List.prefix_append xs ys) with hfirst | ⟨qs, rfl⟩
    · exact hxs.nonneg ps hfirst
    · rw [depth_append, hxs.closed, Int.zero_add]
      exact hys.nonneg qs ((List.prefix_append_right_inj xs).mp h)
  closed := by rw [depth_append, hxs.closed, hys.closed, Int.zero_add]

end Brackets

/-- A byte that went on the stack or came off it. -/
inductive StackMove where
  | pushed (v : UInt8)
  | pulled (v : UInt8)
  deriving DecidableEq, Repr

namespace StackMove

def gain : StackMove → Int
  | pushed _ => 1
  | pulled _ => -1

/-- What the moves make of the list `bs`, whose front is the top; a byte that is not the one on top
cannot come off. -/
def replay : List UInt8 → List StackMove → Option (List UInt8)
  | bs, [] => some bs
  | bs, pushed v :: ms => replay (v :: bs) ms
  | [], pulled _ :: _ => none
  | b :: bs, pulled v :: ms => if b = v then replay bs ms else none

@[simp] theorem replay_nil (bs : List UInt8) : replay bs [] = some bs := by cases bs <;> rfl

@[simp] theorem replay_pushed (bs : List UInt8) (v : UInt8) (ms : List StackMove) :
    replay bs (pushed v :: ms) = replay (v :: bs) ms := by cases bs <;> rfl

/-- Only the top comes off. -/
theorem replay_pulled_eq_some_iff {bs cs : List UInt8} {v : UInt8} {ms : List StackMove} :
    replay bs (pulled v :: ms) = some cs ↔ ∃ ds, bs = v :: ds ∧ replay ds ms = some cs := by
  cases bs with
  | nil => simp [replay]
  | cons b bs =>
    by_cases h : b = v
    · subst h
      simp [replay]
    · simp [replay, h]

theorem replay_append_eq_some_iff {bs cs : List UInt8} {xs ys : List StackMove} :
    replay bs (xs ++ ys) = some cs ↔ ∃ ds, replay bs xs = some ds ∧ replay ds ys = some cs := by
  induction xs generalizing bs with
  | nil => simp
  | cons x xs ih =>
    cases x with
    | pushed v => simp only [List.cons_append, replay_pushed, ih]
    | pulled v =>
      simp only [List.cons_append, replay_pulled_eq_some_iff, ih]
      constructor
      · rintro ⟨es, rfl, ds, hxs, hys⟩
        exact ⟨ds, ⟨es, rfl, hxs⟩, hys⟩
      · rintro ⟨ds, ⟨es, rfl, hxs⟩, hys⟩
        exact ⟨es, rfl, ds, hxs, hys⟩

theorem length_of_replay {bs cs : List UInt8} {ms : List StackMove}
    (h : replay bs ms = some cs) : (cs.length : Int) = bs.length + depth gain ms := by
  induction ms generalizing bs with
  | nil =>
    obtain rfl : bs = cs := by simpa using h
    simp
  | cons x ms ih =>
    cases x with
    | pushed v =>
      have hlength := ih (by simpa using h)
      simp only [List.length_cons, depth_cons, gain] at *
      omega
    | pulled v =>
      obtain ⟨ds, rfl, hds⟩ := replay_pulled_eq_some_iff.mp h
      have hlength := ih hds
      simp only [List.length_cons, depth_cons, gain] at *
      omega

/-- Moves that never take more than the front part leave the rest alone. -/
theorem replay_append_list (ts : List UInt8) {bs cs : List UInt8} {ms : List StackMove}
    (hms : ∀ ps, ps <+: ms → 0 ≤ ts.length + depth gain ps) (h : replay (ts ++ bs) ms = some cs) :
    ∃ us, replay ts ms = some us ∧ cs = us ++ bs := by
  induction ms generalizing ts with
  | nil => exact ⟨ts, by simp, by simpa using h.symm⟩
  | cons x ms ih =>
    have hlater : ∀ ps, ps <+: ms → 0 ≤ ts.length + gain x + depth gain ps :=
      depth_along_tail (0 ≤ ·) hms
    cases x with
    | pushed v =>
      rw [replay_pushed] at h ⊢
      refine ih (v :: ts) (fun ps hps => ?_) h
      have hp := hlater ps hps
      simp only [List.length_cons, gain] at *
      omega
    | pulled v =>
      obtain ⟨ds, hds, hrest⟩ := replay_pulled_eq_some_iff.mp h
      cases ts with
      | nil =>
        have hp := hlater [] List.nil_prefix
        simp [gain] at hp
      | cons t ts =>
        obtain ⟨rfl, rfl⟩ := List.cons.inj hds
        obtain ⟨us, hus, hcs⟩ := ih ts (fun ps hps => by
          have hp := hlater ps hps
          simp only [List.length_cons, gain] at hp
          omega) hrest
        exact ⟨us, replay_pulled_eq_some_iff.mpr ⟨ts, rfl, hus⟩, hcs⟩

/-- Balanced moves leave the list as it was. -/
theorem eq_of_replay_of_balanced {bs cs : List UInt8} {ms : List StackMove}
    (hms : Balanced gain ms) (h : replay bs ms = some cs) : cs = bs := by
  obtain ⟨us, hus, rfl⟩ := replay_append_list [] (by simpa using hms.nonneg) h
  have hlength := length_of_replay hus
  rw [hms.closed] at hlength
  obtain rfl : us = [] := List.eq_nil_of_length_eq_zero (by simpa using hlength)
  rfl

/-- The byte that comes off is the one that went on where its bracket opened. -/
theorem pulled_eq_of_balanced {bs cs : List UInt8} (before : List StackMove)
    {between after : List StackMove} {v w : UInt8} (hbetween : Balanced gain between)
    (h : replay bs (before ++ pushed v :: (between ++ pulled w :: after)) = some cs) : w = v := by
  obtain ⟨ds, -, hds⟩ := replay_append_eq_some_iff.mp h
  rw [replay_pushed] at hds
  obtain ⟨es, hes, hlast⟩ := replay_append_eq_some_iff.mp hds
  obtain rfl := eq_of_replay_of_balanced hbetween hes
  obtain ⟨fs, hfs, -⟩ := replay_pulled_eq_some_iff.mp hlast
  exact (List.cons.inj hfs).1.symm

theorem balanced_enclose {ms : List StackMove} (h : Balanced gain ms) (v w : UInt8) :
    Balanced gain (pushed v :: (ms ++ [pulled w])) where
  nonneg ps hps := by
    rcases List.prefix_cons_iff.mp hps with rfl | ⟨qs, rfl, hqs⟩
    · exact Int.le_refl 0
    · rcases List.prefix_concat_iff.mp hqs with rfl | hinside
      · simp [h.closed, gain]
      · have hq := h.nonneg qs hinside
        simp only [depth_cons, gain]
        omega
  closed := by simp [h.closed, gain]

/-- The top of a list that was empty at first went on at some moment, and all that went on later has
come off again. -/
theorem exists_pushed_of_replay {ms : List StackMove} {v : UInt8} {bs : List UInt8}
    (h : replay [] ms = some (v :: bs)) :
    ∃ before between, ms = before ++ pushed v :: between ∧ Balanced gain between ∧
      replay [] before = some bs := by
  -- on the length: the push that the last pull matches ends a shorter list, to which this applies
  -- again
  induction hn : ms.length using Nat.strongRecOn generalizing ms v bs with
  | ind n ih =>
    rcases List.eq_nil_or_concat ms with rfl | ⟨ms, x, rfl⟩
    · simp at h
    · rw [List.length_concat] at hn
      rw [List.concat_eq_append] at h ⊢
      obtain ⟨ds, hds, hlast⟩ := replay_append_eq_some_iff.mp h
      cases x with
      | pushed u =>
        obtain ⟨rfl, rfl⟩ : u = v ∧ ds = bs := by simpa using hlast
        exact ⟨ms, [], rfl, balanced_nil, hds⟩
      | pulled u =>
        -- what came off last went on before, over the byte that is on top now
        obtain ⟨es, rfl, hes⟩ := replay_pulled_eq_some_iff.mp hlast
        obtain rfl : es = v :: bs := by simpa using hes
        obtain ⟨before, inner, rfl, hinner, hbefore⟩ := ih ms.length (by omega) hds rfl
        have hshorter : before.length < n := by
          rw [← hn, List.length_append]
          omega
        obtain ⟨first, outer, rfl, houter, hfirst⟩ := ih before.length hshorter hbefore rfl
        refine ⟨first, outer ++ pushed u :: (inner ++ [pulled u]), by simp, ?_, hfirst⟩
        exact houter.append (balanced_enclose hinner u u)

/-- A byte that comes off has a bracket that opened where it went on. -/
theorem exists_pushed_of_pulled {before after : List StackMove} {w : UInt8} {cs : List UInt8}
    (h : replay [] (before ++ pulled w :: after) = some cs) :
    ∃ first between, before = first ++ pushed w :: between ∧ Balanced gain between := by
  obtain ⟨ds, hds, hrest⟩ := replay_append_eq_some_iff.mp h
  obtain ⟨es, rfl, -⟩ := replay_pulled_eq_some_iff.mp hrest
  obtain ⟨first, between, hbefore, hbetween, -⟩ := exists_pushed_of_replay hds
  exact ⟨first, between, hbefore, hbetween⟩

end StackMove

end Mos6502
