import Mathlib.Logic.Basic

/-!
# Transition systems

A system is an initial state and the partial effect of each action. `Reaches` collects the
states of the runs whose every action is allowed in the state it is taken in; an invariant is
proved once for `init` and once for a step.
-/

namespace Celestite.Concurrency

structure Lts (S A : Type*) where
  init : S
  step : S → A → Option S

namespace Lts
variable {S A : Type*} {L : Lts S A} {allow : S → A → Prop}

inductive Reaches (L : Lts S A) (allow : S → A → Prop) : S → Prop where
  | init : Reaches L allow L.init
  | step {s s' : S} {a : A} (before : Reaches L allow s) (allowed : allow s a)
      (taken : L.step s a = some s') : Reaches L allow s'

abbrev Reachable (L : Lts S A) : S → Prop := L.Reaches fun _ _ => True

theorem Reaches.invariant {I : S → Prop} {s : S} (h : L.Reaches allow s) (init : I L.init)
    (step : ∀ {s a s'}, L.Reaches allow s → I s → allow s a → L.step s a = some s' → I s') :
    I s := by
  induction h with
  | init => exact init
  | step before allowed taken ih => exact step before ih allowed taken

theorem Reaches.mono {allow' : S → A → Prop} {s : S} (h : L.Reaches allow s)
    (weaker : ∀ s a, allow s a → allow' s a) : L.Reaches allow' s :=
  h.invariant (I := L.Reaches allow') .init fun _ ih allowed taken =>
    .step ih (weaker _ _ allowed) taken

def run (L : Lts S A) (allow : S → A → Prop) [∀ s a, Decidable (allow s a)] : S → List A → Option S
  | s, [] => some s
  | s, a :: as => if allow s a then (L.step s a).bind fun s' => run L allow s' as else none

theorem run_reaches [∀ s a, Decidable (allow s a)] {s s' : S} (as : List A)
    (before : L.Reaches allow s) (h : L.run allow s as = some s') : L.Reaches allow s' := by
  induction as generalizing s with
  | nil =>
    obtain rfl := Option.some.inj h
    exact before
  | cons a as ih =>
    simp only [run] at h
    split at h
    · rename_i allowed
      obtain ⟨next, taken, rest⟩ := Option.bind_eq_some_iff.mp h
      exact ih (.step before allowed taken) rest
    · contradiction

/-- The states that runs of these actions lead to. -/
inductive Runs (L : Lts S A) (allow : S → A → Prop) : List A → S → Prop where
  | nil : Runs L allow [] L.init
  | snoc {as : List A} {s s' : S} {a : A} (before : Runs L allow as s) (allowed : allow s a)
      (taken : L.step s a = some s') : Runs L allow (as ++ [a]) s'

/-- A system that can always follow has the same runs. -/
theorem Runs.followed {T : Type*} {M : Lts T A} {allow' : T → A → Prop} {R : S → T → Prop} {as : List A} {s : S}
    (ran : L.Runs allow as s) (init : R L.init M.init)
    (step : ∀ {s t a s'}, R s t → allow s a → L.step s a = some s' →
      allow' t a ∧ ∃ t', M.step t a = some t' ∧ R s' t') : ∃ t, M.Runs allow' as t ∧ R s t := by
  induction ran with
  | nil => exact ⟨_, .nil, init⟩
  | snoc _ allowed taken ih =>
    obtain ⟨t, before, related⟩ := ih
    obtain ⟨allowed', t', taken', related'⟩ := step related allowed taken
    exact ⟨t', .snoc before allowed' taken', related'⟩

end Lts
end Celestite.Concurrency
