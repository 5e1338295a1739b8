import Mathlib.Algebra.BigOperators.Group.Finset.Piecewise
import Celestite.ArcString.Counting

/-!
# Counting over whole runs

The count of a live block is the number of handles that point to it, less those a thread is about
to count, has stopped counting or has moved from.
-/

namespace Celestite.ArcString
open Concurrency

variable {H I : Type*} [DecidableEq H] [DecidableEq I] [Fintype H] [Fintype I]
variable {s s' : State H I} {t : I} {c : Call H} {p : Point} {h : H} {b : ℕ}

theorem sound_of_reaches (reached : (lts H I).Reaches Lawful s) : Sound s := by
  apply reached.invariant init_sound
  intro s a s' _ sound lawful taken
  cases a with
  | start t c =>
    simp only [lts] at taken
    split at taken
    · rename_i idle
      obtain rfl := Option.some.inj taken
      exact sound.start idle lawful
    · contradiction
  | step t =>
    simp only [lts, Option.bind_eq_some_iff] at taken
    obtain ⟨⟨c, p⟩, here, step⟩ := taken
    exact (advance_taken step).keeps sound here

/-- No step of a call uses a null pointer or a deleted block. -/
theorem Sound.advances (sound : Sound s) (here : s.running t = some (c, p)) :
    (advance s t c p).isSome = true := by
  have expects := sound.expects here
  cases p with
  | lower =>
    cases points : s.rep c.this with
    | none => simp [advance, points]
    | some b =>
      have shown : ¬s.Hidden c.this := by simp [hidden_this sound.toExclusive here, Point.hides]
      obtain ⟨r, block⟩ := sound.live points shown
      simp [advance, points, block]
  | delete =>
    obtain ⟨b, r, points, block, -⟩ := expects
    simp [advance, points, block]
  | clear => cases op : c.op <;> simp [advance, op]
  | store =>
    cases op : c.op with
    | destroy => exact absurd op expects.1
    | create | copy | move | copyAssign | moveAssign => simp [advance, op]
  | raise =>
    obtain ⟨copies, rhs, source, same⟩ := expects
    obtain ⟨b, points⟩ := Option.ne_none_iff_exists'.mp (sound.source here copies source)
    obtain ⟨r, block⟩ := sound.live points (source_shown sound here source)
    simp [advance, ← same, points, block]
  | vacate =>
    obtain ⟨-, rhs, source, -⟩ := expects
    simp [advance, source]

/-! ### Handles and threads -/

namespace State

def handles (s : State H I) (b : ℕ) : Finset H := Finset.univ.filter fun h => s.rep h = some b

def within (s : State H I) (b : ℕ) (points : List Point) (t : I) : Bool :=
  match s.running t with
  | some (c, p) => decide (p ∈ points) && decide (s.rep c.this = some b)
  | none => false

def threads (s : State H I) (b : ℕ) (points : List Point) : Finset I :=
  Finset.univ.filter fun t => s.within b points t = true

end State

omit [DecidableEq H] [DecidableEq I] [Fintype H] in
theorem mem_threads {points : List Point} :
    t ∈ s.threads b points ↔ ∃ c p, s.running t = some (c, p) ∧ p ∈ points ∧ s.rep c.this = some b := by
  unfold State.threads State.within
  cases here : s.running t with
  | none => simp [here]
  | some call =>
    obtain ⟨c, p⟩ := call
    simp [here, and_assoc]

theorem hidden_handles (exclusive : Exclusive s) (b : ℕ) :
    ((s.handles b).filter s.Hidden).card = (s.threads b [.delete, .clear, .raise, .vacate]).card := by
  let this := fun t => (s.running t).map fun call => call.1.this
  have single : Set.InjOn this (s.threads b [.delete, .clear, .raise, .vacate]) := by
    intro t member u member' same
    obtain ⟨c, p, here, -⟩ := mem_threads.mp member
    obtain ⟨d, q, there, -⟩ := mem_threads.mp member'
    simp only [this, here, there, Option.map_some, Option.some.injEq] at same
    by_contra differ
    exact (exclusive.apart here there differ).this_ne same.symm
  have image : (s.threads b [.delete, .clear, .raise, .vacate]).image this =
      ((s.handles b).filter s.Hidden).image some := by
    ext target
    simp only [Finset.mem_image, Finset.mem_filter, State.handles, Finset.mem_univ, true_and]
    constructor
    · rintro ⟨t, member, rfl⟩
      obtain ⟨c, p, here, point, points⟩ := mem_threads.mp member
      refine ⟨c.this, ⟨points, t, ?_⟩, by simp [this, here]⟩
      rw [here]
      cases p <;> simp_all [hides, Point.hides]
    · rintro ⟨h, ⟨points, t, hidden⟩, rfl⟩
      cases here : s.running t with
      | none => simp [here, hides] at hidden
      | some call =>
        obtain ⟨c, p⟩ := call
        simp only [here, hides, Bool.and_eq_true, decide_eq_true_eq] at hidden
        obtain ⟨hidden, rfl⟩ := hidden
        refine ⟨t, mem_threads.mpr ⟨c, p, here, ?_, points⟩, by simp [this, here]⟩
        cases p <;> simp_all [Point.hides]
  rw [← Finset.card_image_of_injOn single, image,
    Finset.card_image_of_injective _ (Option.some_injective H)]

omit [DecidableEq H] [DecidableEq I] [Fintype H] in
theorem threads_split (b : ℕ) :
    (s.threads b [.delete, .clear, .raise, .vacate]).card =
      (s.threads b [.raise]).card + (s.threads b [.delete, .clear]).card + (s.threads b [.vacate]).card := by
  simp only [State.threads, Finset.card_filter]
  rw [← Finset.sum_add_distrib, ← Finset.sum_add_distrib]
  apply Finset.sum_congr rfl
  intro t _
  unfold State.within
  rcases s.running t with - | ⟨c, p⟩
  · simp
  · by_cases points : s.rep c.this = some b <;> cases p <;> simp [points]

theorem refCnt_eq (sound : Sound s) {r : ArcStringRep} (block : s.storage b = some r) :
    r.refCnt = (s.handles b).card - (s.threads b [.raise]).card - (s.threads b [.delete, .clear]).card -
      (s.threads b [.vacate]).card := by
  have hidden := hidden_handles sound.toExclusive b
  have split := threads_split (s := s) b
  have shown : (s.handles b).filter (fun h => ¬s.Hidden h) = s.counted b := Finset.filter_filter ..
  have total := Finset.card_filter_add_card_filter_not (s := s.handles b) s.Hidden
  rw [shown] at total
  rw [sound.count block]
  omega

/-! ### Deletion -/

/-- Only the handle of a call that has yet to clear it points to a deleted block. -/
theorem dangling_clears (sound : Sound s) (points : s.rep h = some b) (gone : s.storage b = none) :
    ∃ t c, s.running t = some (c, .clear) ∧ c.this = h := by
  have known : ∀ {h'}, s.rep h' = some b → s.Hidden h' := by
    intro h' points'
    by_contra shown
    obtain ⟨r, block⟩ := sound.live points' shown
    simp [gone] at block
  obtain ⟨t, hidden⟩ := known points
  cases here : s.running t with
  | none => simp [here, hides] at hidden
  | some call =>
    obtain ⟨c, p⟩ := call
    simp only [here, hides, Bool.and_eq_true, decide_eq_true_eq] at hidden
    obtain ⟨hidden, rfl⟩ := hidden
    have expects := sound.expects here
    cases p with
    | lower | store => contradiction
    | clear => exact ⟨t, c, here, rfl⟩
    | delete =>
      obtain ⟨b', r, points', block, -⟩ := expects
      obtain rfl := Option.some.inj (points.symm.trans points')
      simp [gone] at block
    | raise | vacate =>
      obtain ⟨-, rhs, source, same⟩ := expects
      exact absurd (known (same.trans points)) (source_shown sound here source)

omit [DecidableEq I] in
/-- A block is deleted once, by the thread whose `fetch_sub` returned 1. -/
theorem deleted_once (sound : Sound s) (b : ℕ) :
    s.deletions b = [] ∧ (b < s.allocated → s.storage b ≠ none) ∨
      ∃ t, s.zeroings b = [t] ∧ s.deletions b = [t] ∧ s.storage b = none := by
  cases sound.past b with
  | unborn _ later _ deletions => exact .inl ⟨deletions, fun earlier => absurd later (not_le.mpr earlier)⟩
  | live block _ _ deletions | dying block _ _ _ _ deletions =>
    exact .inl ⟨deletions, fun _ => by simp [block]⟩
  | deleted absent _ zeroings deletions => exact .inr ⟨_, zeroings, deletions, absent⟩

omit [DecidableEq I] in
theorem stored_iff_of_quiet (sound : Sound s) (quiet : ∀ t, s.running t = none) :
    s.storage b ≠ none ↔ ∃ h, s.rep h = some b := by
  have shown : ∀ h, ¬s.Hidden h := by
    rintro h ⟨t, hidden⟩
    simp [quiet t, hides] at hidden
  constructor
  · intro stored
    obtain ⟨r, block⟩ := Option.ne_none_iff_exists'.mp stored
    cases sound.past b with
    | unborn absent | deleted absent => exact absurd absent stored
    | dying _ _ last => simp [quiet] at last
    | live block' nonzero =>
      rw [sound.count block'] at nonzero
      obtain ⟨h, member⟩ := Finset.card_pos.mp (Nat.pos_of_ne_zero (mod_cast nonzero))
      exact ⟨h, (mem_counted.mp member).1⟩
  · rintro ⟨h, points⟩
    obtain ⟨r, block⟩ := sound.live points (shown h)
    simp [block]

/-- In every state of every interleaving the counts are right, no thread is about to use a deleted
block, and each block is deleted once, by the last to lower its count, when no handle is left. -/
theorem counted_and_deleted_once (reached : (lts H I).Reaches Lawful s) :
    (∀ b r, s.storage b = some r → r.refCnt = (s.handles b).card - (s.threads b [.raise]).card -
      (s.threads b [.delete, .clear]).card - (s.threads b [.vacate]).card) ∧
    (∀ t c p, s.running t = some (c, p) → (advance s t c p).isSome = true) ∧
    (∀ h b, s.rep h = some b → s.storage b = none → ∃ t c, s.running t = some (c, .clear) ∧ c.this = h) ∧
    (∀ b, s.deletions b = [] ∧ (b < s.allocated → s.storage b ≠ none) ∨
      ∃ t, s.zeroings b = [t] ∧ s.deletions b = [t] ∧ s.storage b = none) ∧
    ((∀ t, s.running t = none) → ∀ b, s.storage b ≠ none ↔ ∃ h, s.rep h = some b) := by
  have sound := sound_of_reaches reached
  refine ⟨fun b r => refCnt_eq sound, fun t c p => sound.advances, fun h b => dangling_clears sound,
    deleted_once sound, fun quiet b => stored_iff_of_quiet sound quiet⟩

instance (c d : Call H) : Decidable (c.Apart d) :=
  inferInstanceAs (Decidable (∀ h, ((c.this = h ∨ c.op.moves = true ∧ c.op.rhs = some h) →
    ¬(d.this = h ∨ d.op.rhs = some h)) ∧ ((d.this = h ∨ d.op.moves = true ∧ d.op.rhs = some h) →
    ¬(c.this = h ∨ c.op.rhs = some h))))

instance (s : State H I) (a : Act H I) : Decidable (Lawful s a) :=
  match a with
  | .step _ => isTrue trivial
  | .start _ c =>
    have _ : Decidable (∀ u d p, s.running u = some (d, p) → c.Apart d) :=
      decidable_of_iff (∀ u, ∀ call ∈ s.running u, c.Apart call.1)
        ⟨fun all u d p call => all u (d, p) call, fun all u call member => all u call.1 call.2 member⟩
    inferInstanceAs (Decidable (_ ∧ _ ∧ _))

theorem counted_and_deleted_once_two_threads : ∃ s : State (Fin 2) (Fin 2),
    (lts (Fin 2) (Fin 2)).Reaches Lawful s ∧ s.allocated = 1 ∧
      ∃ t, s.zeroings 0 = [t] ∧ s.deletions 0 = [t] := by
  obtain ⟨s, ran, one, quiet, empty⟩ : ∃ s, (lts (Fin 2) (Fin 2)).run Lawful (lts (Fin 2) (Fin 2)).init
      [.start 0 ⟨.create "e", 0⟩, .step 0, .start 0 ⟨.copy 0, 1⟩, .step 0, .step 0,
       .start 0 ⟨.destroy, 0⟩, .start 1 ⟨.destroy, 1⟩, .step 0, .step 1, .step 1, .step 0, .step 1] =
      some s ∧ s.allocated = 1 ∧ (∀ t, s.running t = none) ∧ ∀ h, s.rep h = none :=
    ⟨_, rfl, rfl, by decide, by decide⟩
  have reached := Lts.run_reaches _ .init ran
  obtain ⟨-, -, -, once, kept⟩ := counted_and_deleted_once reached
  have gone : ¬s.storage 0 ≠ none := by
    rw [kept quiet 0]
    rintro ⟨h, points⟩
    simp [empty h] at points
  refine ⟨s, reached, one, ?_⟩
  rcases once 0 with ⟨-, there⟩ | ⟨t, zeroings, deletions, -⟩
  · exact absurd (there (by omega)) gone
  · exact ⟨t, zeroings, deletions⟩

end Celestite.ArcString
