import Mathlib.Data.Option.Basic
import Mathlib.Logic.Function.Basic

/-!
# Futures

What a future shares with its promise is set once: by the result that is stored, or by the
destruction of a promise that nothing was stored to. Storing a second time is an error.
-/

namespace Celestite.Concurrency

inductive Future (ρ : Type*) where
  | pending
  | ready (result : ρ)
  | broken
  deriving DecidableEq

namespace Future
variable {κ ρ : Type*}

def store (result : ρ) : Future ρ → Option (Future ρ)
  | pending => some (ready result)
  | _ => none

def abandon : Future ρ → Future ρ
  | pending => broken
  | f => f

/-- What happens to the promises, by the names of their futures. -/
inductive Event (κ ρ : Type*) where
  | store (name : κ) (result : ρ)
  | abandon (names : List κ)

variable [DecidableEq κ]

/-- The destruction of these promises. -/
def abandonAll (names : List κ) (futures : κ → Future ρ) (name : κ) : Future ρ :=
  if name ∈ names then (futures name).abandon else futures name

def happen (futures : κ → Future ρ) : Event κ ρ → Option (κ → Future ρ)
  | .store name result => ((futures name).store result).map (Function.update futures name)
  | .abandon names => some (abandonAll names futures)

def run (events : List (Event κ ρ)) (futures : κ → Future ρ) : Option (κ → Future ρ) :=
  events.foldlM happen futures

theorem run_append (es es' : List (Event κ ρ)) (futures : κ → Future ρ) :
    run (es ++ es') futures = (run es futures).bind (run es') :=
  List.foldlM_append

theorem happen_store {futures : κ → Future ρ} {name : κ} (result : ρ) (pending : futures name = .pending) :
    happen futures (.store name result) = some (Function.update futures name (.ready result)) := by
  rw [happen, pending]
  rfl

theorem abandonAll_of_mem {futures : κ → Future ρ} {names : List κ} {name : κ} (member : name ∈ names)
    (pending : futures name = .pending) : abandonAll names futures name = .broken := by
  rw [abandonAll, if_pos member, pending]
  rfl

theorem abandonAll_of_not_mem {futures : κ → Future ρ} {names : List κ} {name : κ} (other : name ∉ names) :
    abandonAll names futures name = futures name :=
  if_neg other

theorem abandonAll_settled {futures : κ → Future ρ} {name : κ} (names : List κ)
    (settled : futures name ≠ .pending) : abandonAll names futures name = futures name := by
  unfold abandonAll
  split
  · cases f : futures name with
    | pending => exact absurd f settled
    | _ => rfl
  · rfl

theorem happen_kept {futures after : κ → Future ρ} {e : Event κ ρ} {name : κ}
    (happens : happen futures e = some after) (settled : futures name ≠ .pending) :
    after name = futures name := by
  cases e with
  | store other result =>
    obtain ⟨f, stored, rfl⟩ := Option.map_eq_some_iff.mp happens
    have apart : name ≠ other := by
      rintro rfl
      cases held : futures name with
      | pending => exact settled held
      | _ => simp [held, store] at stored
    exact Function.update_of_ne apart _ _
  | abandon names =>
    obtain rfl := Option.some.inj happens
    exact abandonAll_settled names settled

/-- A future that is set keeps what it was set to. -/
theorem run_kept {es : List (Event κ ρ)} {futures after : κ → Future ρ} {name : κ}
    (runs : run es futures = some after) (settled : futures name ≠ .pending) :
    after name = futures name := by
  induction es generalizing futures with
  | nil =>
    obtain rfl := Option.some.inj runs
    rfl
  | cons e es ih =>
    obtain ⟨mid, happens, rest⟩ := Option.bind_eq_some_iff.mp runs
    have kept := happen_kept happens settled
    rw [← kept] at settled ⊢
    exact ih rest settled

end Future
end Celestite.Concurrency
