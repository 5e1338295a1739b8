import Celestite.RingBuffer.Safety

/-!
# What is left of the elements

A destructor and a move assignment clear the buffer before its block is freed.
-/

namespace Celestite.RingBuffer
open Concurrency

variable {O T : Type}

theorem Kept.clears_iff {rb : RingBuffer T} (kept : Kept rb) : Clears rb ↔ rb.count ≤ 1 := by
  cases kept with
  | some xs h => exact h.clears_iff
  | none vacant =>
    subst vacant
    exact iff_of_true ⟨_, rfl, rfl, fun _ => rfl⟩ (Nat.zero_le 1)

theorem Clears.raw {rb rb' : RingBuffer T} (clears : Clears rb) (ran : clear rb = .ok () rb') (j : ℕ) :
    rb'.slots j = none := by
  obtain ⟨rb'', ran', -, raw⟩ := clears
  rw [ran] at ran'
  cases ran'
  exact raw j

variable [DecidableEq O] {s s' : State O T} {a : Act O T}

/-- A buffer that is destroyed or assigned to holds at most one element. -/
def Small (s : State O T) : Act O T → Prop
  | .moveAssign this _ | .destroy this => ∀ b, s.objects this = some b → b.rb.count ≤ 1
  | _ => True

instance (s : State O T) (a : Act O T) : Decidable (Small s a) :=
  match a with
  | .moveAssign this _ | .destroy this => inferInstanceAs (Decidable (∀ b ∈ s.objects this, b.rb.count ≤ 1))
  | .construct .. | .call .. | .moveConstruct .. => isTrue trivial

/-- No element is in a block that was freed. -/
def AllRaw (s : State O T) : Prop := ∀ rb ∈ s.dropped, ∀ j, rb.slots j = none

theorem AllRaw.dismantled (raw : AllRaw s) (kept : AllKept s) {this : O} {b : Object T} {rb : RingBuffer T}
    (here : s.objects this = some b) (small : b.rb.count ≤ 1) (ran : clear b.rb = .ok () rb) :
    AllRaw (s.dismantled this { b with rb := rb }) := by
  intro gone member j
  rcases List.mem_append.mp member with before | freed
  · exact raw gone before j
  · obtain ⟨_, -, rfl⟩ := List.mem_map.mp freed
    exact ((kept this b here).clears_iff.mpr small).raw ran j

theorem AllRaw.step (raw : AllRaw s) (kept : AllKept s) (small : Small s a) (stepped : Stepped s a s') :
    AllRaw s' := by
  cases stepped with
  | construct free => exact raw
  | call here ran => exact raw
  | moveConstruct free there => exact raw
  | moveAssign here ran there => exact raw.dismantled kept here (small _ here) ran
  | destroy here ran => exact raw.dismantled kept here (small _ here) ran

theorem allRaw_of_small (reached : (population O T).Reaches (fun s a => Permitted s a ∧ Small s a) s) : AllRaw s := by
  refine reached.invariant (I := AllRaw) (fun _ member => by simp [population] at member) ?_
  intro s a s' before raw allowed taken
  have kept := allKept_of_permitted (before.mono fun _ _ allowed => allowed.1)
  exact raw.step kept allowed.2 (step_stepped taken)

/-- `clear` destroys every element of a buffer exactly when there is at most one, whatever run led to it.
In runs that clear no others, no element outlives its block and none is destroyed twice. -/
theorem clears_iff_small :
    (∀ s : State O T, (population O T).Reaches (fun s a => Permitted s a ∧ Small s a) s →
      (∀ rb ∈ s.dropped, ∀ j, rb.slots j = none) ∧ ∀ a, Safe s a → Defined s a) ∧
    ∀ s : State O T, (population O T).Reaches Permitted s → ∀ o b, s.objects o = some b →
      (Clears b.rb ↔ b.rb.count ≤ 1) := by
  constructor
  · intro s reached
    have kept := allKept_of_permitted (reached.mono fun _ _ allowed => allowed.1)
    exact ⟨allRaw_of_small reached, fun a safe => (kept.defined_iff safe.1).mpr safe.2⟩
  · intro s reached o b there
    exact (allKept_of_permitted reached o b there).clears_iff

theorem clears_iff_small_wrapped : ∃ s : State (Fin 1) ℕ, (population (Fin 1) ℕ).Reaches Permitted s ∧
    ∃ b, s.objects 0 = some b ∧ (b.rb.first, b.rb.count, b.rb.max) = (1, 1, 2) ∧ Clears b.rb := by
  obtain ⟨s, b, ran, here, fields⟩ : ∃ s b, (population (Fin 1) ℕ).run Permitted (population (Fin 1) ℕ).init
      [.construct 0 2 64, .call 0 (.insert .push (plain 1)), .call 0 (.insert .push (plain 2)), .call 0 .pop] =
        some s ∧ s.objects 0 = some b ∧ (b.rb.first, b.rb.count, b.rb.max) = (1, 1, 2) := ⟨_, _, rfl, rfl, rfl⟩
  have reached := Lts.run_reaches _ .init ran
  have count : b.rb.count = 1 := by
    rw [Prod.mk.injEq, Prod.mk.injEq] at fields
    exact fields.2.1
  exact ⟨s, reached, b, here, fields, ((clears_iff_small (O := Fin 1) (T := ℕ)).2 s reached 0 b here).mpr count.le⟩

/-- Of two elements `clear` leaves one, whose block is then freed; and `pop` destroys the first one again. -/
theorem half_cleared : ∃ s : State (Fin 1) ℕ, (population (Fin 1) ℕ).Reaches Permitted s ∧
    ∃ b rb s', s.objects 0 = some b ∧ clear b.rb = .ok () rb ∧ rb.count = 1 ∧ rb.slots 1 = some 2 ∧
      pop rb = .undefined .notConstructed ∧
      (population (Fin 1) ℕ).step s (.destroy 0) = some s' ∧ s'.dropped.map (·.slots 1) = [some 2] := by
  obtain ⟨s, ran, facts⟩ : ∃ s, (population (Fin 1) ℕ).run Permitted (population (Fin 1) ℕ).init
      [.construct 0 2 64, .call 0 (.insert .push (plain 1)), .call 0 (.insert .push (plain 2))] = some s ∧
      ∃ b rb s', s.objects 0 = some b ∧ clear b.rb = .ok () rb ∧ rb.count = 1 ∧ rb.slots 1 = some 2 ∧
        pop rb = .undefined .notConstructed ∧
        (population (Fin 1) ℕ).step s (.destroy 0) = some s' ∧ s'.dropped.map (·.slots 1) = [some 2] :=
    ⟨_, rfl, _, _, _, rfl, rfl, rfl, rfl, rfl, rfl, rfl⟩
  exact ⟨s, Lts.run_reaches _ .init ran, facts⟩

end Celestite.RingBuffer
