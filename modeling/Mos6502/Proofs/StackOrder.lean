import Mos6502.Proofs.Brackets
import Mos6502.Proofs.Footprint
import Mos6502.Proofs.Traps

/-!
# Last in, first out

Bytes go on the stack and come off it alone, as words, as the status or as the accumulator, and the
widths mix freely. `Machine.traffic` lists the bytes that a run of such uses moves. While never more
than the 256 bytes of the page are on the stack, they lie there as the list that `replay` makes of
the traffic, so that each byte, word and status comes back to the use that matches the one which put
it there. The stack pointer counts the bytes, and no cell off the page changes.
-/

namespace Mos6502

/-- The ways in which instructions use the stack. -/
inductive StackUse where
  | push (v : UInt8)
  | pop
  | pushWord (w : UInt16)
  | popWord
  | php
  | plp
  | pha
  | pla
  deriving DecidableEq, Repr

namespace StackUse

/-- The bytes put on the stack, less those taken off. -/
def gain : StackUse → Int
  | push _ | php | pha => 1
  | pop | plp | pla => -1
  | pushWord _ => 2
  | popWord => -2

/-- At no point is a byte taken off that was not put on, or are there more than 256 of them. -/
def Fit (us : List StackUse) : Prop :=
  ∀ xs, xs <+: us → 0 ≤ depth gain xs ∧ depth gain xs ≤ 256

instance (us : List StackUse) : Decidable (Fit us) :=
  decidable_of_iff (∀ xs ∈ us.inits, 0 ≤ depth gain xs ∧ depth gain xs ≤ 256) (by simp [Fit])

end StackUse

namespace Machine

def use (m : Machine) : StackUse → Machine
  | .push v => m.push v
  | .pop => m.pop.2
  | .pushWord w => m.pushWord w
  | .popWord => m.popWord.2
  | .php => m.php
  | .plp => m.plp
  | .pha => m.pha
  | .pla => m.pla

def uses (m : Machine) (us : List StackUse) : Machine := us.foldl use m

/-- The bytes that a use moves, in order. A byte that comes off is read off what the use hands over:
the low byte of a word comes first, and that of PLA is what it leaves in A. -/
def moves (m : Machine) : StackUse → List StackMove
  | .push v => [.pushed v]
  | .pop => [.pulled m.pop.1]
  | .pushWord w => [.pushed (highByte w), .pushed (lowByte w)]
  | .popWord => [.pulled (lowByte m.popWord.1), .pulled (highByte m.popWord.1)]
  | .php => [.pushed (m.state.status.pushed true)]
  | .plp => [.pulled m.pop.1]
  | .pha => [.pushed m.state.a]
  | .pla => [.pulled m.pla.state.a]

/-- All bytes that the uses move, in order. -/
def traffic (m : Machine) : List StackUse → List StackMove
  | [] => []
  | u :: us => m.moves u ++ (m.use u).traffic us

variable {m : Machine} {us : List StackUse}

@[simp] theorem uses_nil (m : Machine) : m.uses [] = m := rfl

@[simp] theorem uses_cons (m : Machine) (u : StackUse) (us : List StackUse) :
    m.uses (u :: us) = (m.use u).uses us := rfl

@[simp] theorem uses_append (m : Machine) (us vs : List StackUse) :
    m.uses (us ++ vs) = (m.uses us).uses vs :=
  List.foldl_append

@[simp] theorem traffic_nil (m : Machine) : m.traffic [] = [] := rfl

@[simp] theorem traffic_cons (m : Machine) (u : StackUse) (us : List StackUse) :
    m.traffic (u :: us) = m.moves u ++ (m.use u).traffic us := rfl

@[simp] theorem traffic_append (m : Machine) (us vs : List StackUse) :
    m.traffic (us ++ vs) = m.traffic us ++ (m.uses us).traffic vs := by
  induction us generalizing m with
  | nil => rfl
  | cons u us ih => simp [ih]

@[simp] theorem depth_moves (m : Machine) (u : StackUse) :
    depth StackMove.gain (m.moves u) = u.gain := by
  cases u <;> simp [moves, StackMove.gain, StackUse.gain]

@[simp] theorem depth_traffic (m : Machine) (us : List StackUse) :
    depth StackMove.gain (m.traffic us) = depth StackUse.gain us := by
  induction us generalizing m with
  | nil => rfl
  | cons u us ih => simp [ih]

/-- A use goes one way only. -/
theorem gain_moves (m : Machine) (u : StackUse) :
    (∀ x ∈ m.moves u, 0 ≤ x.gain) ∨ (∀ x ∈ m.moves u, x.gain ≤ 0) := by
  cases u <;> simp [moves, StackMove.gain]

/-- Within a use the depth is least where the use starts or where it ends. -/
theorem nonneg_of_prefix_moves {u : StackUse} {d : Int} {ps : List StackMove}
    (hstart : 0 ≤ d) (hend : 0 ≤ d + u.gain) (h : ps <+: m.moves u) :
    0 ≤ d + depth StackMove.gain ps := by
  obtain ⟨qs, hqs⟩ := h
  have hsum : depth StackMove.gain ps + depth StackMove.gain qs = u.gain := by
    rw [← depth_append, hqs, depth_moves]
  rcases m.gain_moves u with hup | hdown
  · have hps := depth_nonneg fun x hx => hup x (hqs ▸ List.mem_append_left qs hx)
    omega
  · have hps := depth_nonpos fun x hx => hdown x (hqs ▸ List.mem_append_right ps hx)
    omega

theorem nonneg_of_prefix_traffic {d : Int} {ps : List StackMove}
    (hus : ∀ xs, xs <+: us → 0 ≤ d + depth StackUse.gain xs) (h : ps <+: m.traffic us) :
    0 ≤ d + depth StackMove.gain ps := by
  induction us generalizing m d ps with
  | nil =>
    rw [List.prefix_nil.mp h]
    exact hus [] List.nil_prefix
  | cons u us ih =>
    have hstart : 0 ≤ d := by simpa using hus [] List.nil_prefix
    have hend : 0 ≤ d + u.gain := by simpa using hus [u] (by simp)
    rcases List.prefix_or_prefix_of_prefix h (List.prefix_append (m.moves u) _) with
      hfirst | ⟨qs, rfl⟩
    · exact nonneg_of_prefix_moves hstart hend hfirst
    · rw [depth_append, depth_moves, ← Int.add_assoc]
      exact ih (depth_along_tail (0 ≤ ·) hus) ((List.prefix_append_right_inj _).mp h)

/-- Matched uses move matched bytes. -/
theorem balanced_traffic (h : Balanced StackUse.gain us) :
    Balanced StackMove.gain (m.traffic us) where
  nonneg ps hps := by
    simpa using nonneg_of_prefix_traffic (d := 0) (by simpa using h.nonneg) hps
  closed := by rw [depth_traffic, h.closed]

/-- What is pulled next is on top of the list. -/
theorem Stacked.exists_pop {bs : List UInt8} (h : m.Stacked bs) (hlen : 0 < bs.length) :
    ∃ ds, bs = m.pop.1 :: ds ∧ m.pop.2.Stacked ds := by
  obtain ⟨b, ds, rfl⟩ := List.exists_cons_of_length_pos hlen
  exact ⟨ds, by rw [h.pop_value], h.pop⟩

/-- A use within the bounds moves what it would move on the list. -/
theorem Stacked.use {bs : List UInt8} {u : StackUse} (h : m.Stacked bs)
    (hmin : 0 ≤ bs.length + u.gain) (hmax : bs.length + u.gain ≤ 256) :
    ∃ cs, StackMove.replay bs (m.moves u) = some cs ∧ (m.use u).Stacked cs := by
  cases u <;> simp only [StackUse.gain] at hmin hmax
  case push | php | pha => exact ⟨_ :: bs, by simp [moves], h.push (by omega) _⟩
  case pushWord w => exact ⟨_ :: _ :: bs, by simp [moves], h.pushWord (by omega) w⟩
  case pop | plp | pla =>
    obtain ⟨ds, rfl, hds⟩ := h.exists_pop (by omega)
    exact ⟨ds, StackMove.replay_pulled_eq_some_iff.mpr ⟨ds, rfl, StackMove.replay_nil ds⟩, hds⟩
  case popWord =>
    obtain ⟨cs, rfl, hcs⟩ := h.exists_pop (by omega)
    simp only [List.length_cons] at hmin
    obtain ⟨ds, rfl, hds⟩ := hcs.exists_pop (by omega)
    exact ⟨ds, by simp [moves, h.popWord_value, StackMove.replay], hds⟩

/-- So does a whole run of uses. -/
theorem Stacked.uses {bs : List UInt8} (h : m.Stacked bs) (us : List StackUse)
    (hus : ∀ xs, xs <+: us →
      0 ≤ bs.length + depth StackUse.gain xs ∧ bs.length + depth StackUse.gain xs ≤ 256) :
    ∃ cs, StackMove.replay bs (m.traffic us) = some cs ∧ (m.uses us).Stacked cs := by
  induction us generalizing m bs with
  | nil => exact ⟨bs, by simp, h⟩
  | cons u us ih =>
    obtain ⟨hmin, hmax⟩ := hus [u] (by simp)
    simp only [depth_cons, depth_nil, Int.add_zero] at hmin hmax
    obtain ⟨ds, hds, hstacked⟩ := h.use hmin hmax
    have hlength := StackMove.length_of_replay hds
    rw [depth_moves] at hlength
    obtain ⟨cs, hcs, hlast⟩ := ih hstacked (by
      rw [hlength]
      exact depth_along_tail (fun k => 0 ≤ k ∧ k ≤ 256) hus)
    exact ⟨cs, StackMove.replay_append_eq_some_iff.mpr ⟨ds, hds, hcs⟩, hlast⟩

/-- The traffic of a run that fits is one that a list allows, from the empty list on. -/
theorem exists_replay_of_fit (m : Machine) (h : StackUse.Fit us) :
    ∃ cs, StackMove.replay [] (m.traffic us) = some cs := by
  have hempty : m.Stacked [] := trivial
  obtain ⟨cs, hcs, -⟩ := hempty.uses us (by simpa [StackUse.Fit] using h)
  exact ⟨cs, hcs⟩

/-! ### What uses give back -/

/-- A word comes back to the use that matches the one which put it there. -/
theorem popWord_of_balanced {xs ys zs : List StackUse} {w : UInt16}
    (h : StackUse.Fit (xs ++ .pushWord w :: (ys ++ .popWord :: zs)))
    (hys : Balanced StackUse.gain ys) : (m.uses (xs ++ .pushWord w :: ys)).popWord.1 = w := by
  obtain ⟨cs, hcs⟩ := exists_replay_of_fit m h
  have hbytes := balanced_traffic (m := (m.uses xs).use (.pushWord w)) hys
  let top := (m.uses (xs ++ .pushWord w :: ys)).popWord.1
  -- the low byte goes on last and comes off first, so its bracket lies in that of the high byte
  have hlow : lowByte top = lowByte w :=
    StackMove.pulled_eq_of_balanced (m.traffic xs ++ [.pushed (highByte w)]) hbytes
      (by simpa [moves, top] using hcs)
  have hhigh : highByte top = highByte w :=
    StackMove.pulled_eq_of_balanced (m.traffic xs)
      (StackMove.balanced_enclose hbytes (lowByte w) (lowByte top))
      (by simpa [moves, top] using hcs)
  calc top = word (highByte top) (lowByte top) := (word_highByte_lowByte top).symm
    _ = w := by rw [hhigh, hlow, word_highByte_lowByte]

/-- PLP takes the status of the matching PHP, but for the two bits that belong to no flag. -/
theorem toByte_plp_of_balanced {xs ys zs : List StackUse}
    (h : StackUse.Fit (xs ++ .php :: (ys ++ .plp :: zs))) (hys : Balanced StackUse.gain ys) :
    (m.uses (xs ++ .php :: ys)).plp.state.status.toByte =
      ((m.uses xs).state.status.toByte &&& 0xEF) ||| 0x20 := by
  obtain ⟨cs, hcs⟩ := exists_replay_of_fit m h
  have hbytes := balanced_traffic (m := (m.uses xs).use .php) hys
  have htop : (m.uses (xs ++ .php :: ys)).pop.1 = (m.uses xs).state.status.pushed true :=
    StackMove.pulled_eq_of_balanced (m.traffic xs) hbytes (by simpa [moves] using hcs)
  rw [← Trap.toByte_pulled_pushed _ true, ← htop]
  rfl

/-! ### The stack pointer and the rest of memory -/

theorem use_sp (m : Machine) (u : StackUse) :
    ((m.use u).state.sp.toNat : Int) = (m.state.sp.toNat - u.gain) % 256 := by
  have hdown (sp : UInt8) : ((sp - 1).toNat : Int) = (sp.toNat - 1) % 256 := by
    have hsp := sp.toNat_lt
    simp only [UInt8.toNat_sub, UInt8.reduceToNat]
    omega
  have hup (sp : UInt8) : ((sp + 1).toNat : Int) = (sp.toNat + 1) % 256 := by
    simp only [UInt8.toNat_add, UInt8.reduceToNat]
    omega
  cases u
  case push | php | pha => exact hdown m.state.sp
  case pop | plp | pla => exact hup m.state.sp
  case pushWord w =>
    calc ((m.state.sp - 1 - 1).toNat : Int) = ((m.state.sp.toNat - 1) % 256 - 1) % 256 := by
          rw [hdown, hdown]
      _ = (m.state.sp.toNat - 2) % 256 := by omega
  case popWord =>
    calc ((m.state.sp + 1 + 1).toNat : Int) = ((m.state.sp.toNat + 1) % 256 + 1) % 256 := by
          rw [hup, hup]
      _ = (m.state.sp.toNat - -2) % 256 := by omega

theorem uses_sp (m : Machine) (us : List StackUse) :
    ((m.uses us).state.sp.toNat : Int) = (m.state.sp.toNat - depth StackUse.gain us) % 256 := by
  induction us generalizing m with
  | nil =>
    have hsp := m.state.sp.toNat_lt
    simp only [uses_nil, depth_nil]
    omega
  | cons u us ih =>
    rw [uses_cons, ih, use_sp, depth_cons]
    omega

theorem get_use_of_not_onStackPage {a : UInt16} (ha : ¬ Memory.OnStackPage a) (m : Machine)
    (u : StackUse) : (m.use u).memory.get a = m.memory.get a := by
  have hpush (n : Machine) (v : UInt8) : (n.push v).memory.get a = n.memory.get a :=
    n.get_push_of_ne v fun hcell => ha (Memory.onStackPage_of_cell hcell)
  cases u
  case push v => exact hpush m v
  case php => exact hpush m _
  case pha => exact hpush m _
  case pushWord w => exact (hpush _ _).trans (hpush m _)
  all_goals rfl

theorem get_uses_of_not_onStackPage {a : UInt16} (ha : ¬ Memory.OnStackPage a) (m : Machine)
    (us : List StackUse) : (m.uses us).memory.get a = m.memory.get a := by
  induction us generalizing m with
  | nil => rfl
  | cons u us ih => rw [uses_cons, ih, get_use_of_not_onStackPage ha]

/-- The bytes on the stack come off last in, first out, whatever the widths: each pull has its push,
and a byte, a word or a status is what brackets match it with. Along the way the stack pointer
counts the bytes, and nothing but the stack page changes. -/
theorem stack_last_in_first_out (m : Machine) (us : List StackUse) (h : StackUse.Fit us) :
    (∀ before w after, m.traffic us = before ++ .pulled w :: after →
      ∃ first between, before = first ++ .pushed w :: between ∧
        Balanced StackMove.gain between) ∧
    (∀ before v between w after,
      m.traffic us = before ++ .pushed v :: (between ++ .pulled w :: after) →
      Balanced StackMove.gain between → w = v) ∧
    (∀ xs w ys zs, us = xs ++ .pushWord w :: (ys ++ .popWord :: zs) →
      Balanced StackUse.gain ys → (m.uses (xs ++ .pushWord w :: ys)).popWord.1 = w) ∧
    (∀ xs ys zs, us = xs ++ .php :: (ys ++ .plp :: zs) → Balanced StackUse.gain ys →
      (m.uses (xs ++ .php :: ys)).plp.state.status.toByte =
        ((m.uses xs).state.status.toByte &&& 0xEF) ||| 0x20) ∧
    (∀ xs zs, us = xs ++ .pla :: zs →
      (m.uses xs).pla.state.status = { (m.uses xs).state.status with
        zero := (m.uses xs).pla.state.a == 0
        negative := bit 7 (m.uses xs).pla.state.a }) ∧
    (∀ xs, xs <+: us →
      ((m.uses xs).state.sp.toNat : Int) = (m.state.sp.toNat - depth StackUse.gain xs) % 256 ∧
      ∀ a, ¬ Memory.OnStackPage a → (m.uses xs).memory.get a = m.memory.get a) ∧
    (depth StackUse.gain us = 0 → (m.uses us).state.sp = m.state.sp) := by
  obtain ⟨cs, hcs⟩ := exists_replay_of_fit m h
  refine ⟨?_, ?_, ?_, ?_, fun _ _ _ => rfl, ?_, ?_⟩
  · intro before w after hsplit
    rw [hsplit] at hcs
    exact StackMove.exists_pushed_of_pulled hcs
  · intro before v between w after hsplit hbetween
    rw [hsplit] at hcs
    exact StackMove.pulled_eq_of_balanced before hbetween hcs
  · rintro xs w ys zs rfl hys
    exact popWord_of_balanced h hys
  · rintro xs ys zs rfl hys
    exact toByte_plp_of_balanced h hys
  · exact fun xs _ => ⟨uses_sp m xs, fun a ha => get_uses_of_not_onStackPage ha m xs⟩
  · intro hclosed
    have hsp := uses_sp m us
    have hlt := m.state.sp.toNat_lt
    rw [hclosed] at hsp
    apply UInt8.toNat_inj.mp
    omega

/-- The stack pointer is about to wrap. -/
def nearBottom : Machine := { zero with state := { State.zero with sp := 1, a := 0x80 } }

/-- A status and a byte over a word. -/
def interleaved : List StackUse := [.pushWord 0x1234, .php, .plp, .pha, .pla, .popWord]

theorem stack_last_in_first_out_interleaved :
    StackUse.Fit interleaved ∧ Balanced StackUse.gain [.php, .plp, .pha, .pla] ∧
      (nearBottom.uses [.pushWord 0x1234, .php, .plp, .pha, .pla]).popWord.1 = 0x1234 ∧
      (nearBottom.uses [.pushWord 0x1234, .php]).plp.state.status.toByte = 0x20 ∧
      (nearBottom.uses [.pushWord 0x1234, .php, .plp, .pha]).pla.state.status.negative = true ∧
      (nearBottom.uses [.pushWord 0x1234, .php]).state.sp.toNat = 254 ∧
      (nearBottom.uses interleaved).state.sp = 1 := by
  have hfit : StackUse.Fit interleaved := by decide
  have hinner : Balanced StackUse.gain [.php, .plp, .pha, .pla] := by decide
  obtain ⟨-, -, hword, hstatus, hpla, hcounts, hback⟩ :=
    stack_last_in_first_out nearBottom interleaved hfit
  refine ⟨hfit, hinner, hword [] _ _ [] rfl hinner, ?_, ?_, ?_, hback (by decide)⟩
  · exact hstatus [.pushWord 0x1234] [] _ rfl balanced_nil
  · rw [hpla [.pushWord 0x1234, .php, .plp, .pha] _ rfl]
    decide +kernel
  · exact Int.ofNat_inj.mp (hcounts [.pushWord 0x1234, .php] (by decide)).1

end Machine

end Mos6502
