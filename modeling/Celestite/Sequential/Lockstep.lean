import Celestite.Sequential.Program

/-!
# Two runs side by side

Results that are the same but for the states, which a relation connects.
-/

namespace Celestite

inductive Outcome.Related {σ τ ε φ α : Type*} (R : σ → τ → Prop) : Outcome σ ε φ α → Outcome τ ε φ α → Prop where
  | ok {a : α} {s : σ} {t : τ} (states : R s t) : Related R (.ok a s) (.ok a t)
  | threw {e : ε} {s : σ} {t : τ} (states : R s t) : Related R (.threw e s) (.threw e t)
  | undefined {x : φ} : Related R (.undefined x) (.undefined x)

namespace Outcome.Related
universe u
variable {σ τ ε φ : Type*} {α β : Type u}

theorem refl {R : σ → σ → Prop} (same : ∀ s, R s s) (r : Outcome σ ε φ α) : Related R r r := by
  cases r with
  | ok a s => exact .ok (same s)
  | threw e s => exact .threw (same s)
  | undefined => exact .undefined

theorem bind {R Q : σ → τ → Prop} {p : Program σ ε φ α} {p' : Program τ ε φ α} {f : α → Program σ ε φ β}
    {f' : α → Program τ ε φ β} {s : σ} {t : τ} (first : Related R (p s) (p' t))
    (thrown : ∀ s t, R s t → Q s t) (rest : ∀ a s t, R s t → Related Q (f a s) (f' a t)) :
    Related Q ((p >>= f) s) ((p' >>= f') t) := by
  rw [Program.bind_run, Program.bind_run]
  generalize p s = r, p' t = r' at first
  cases first with
  | ok states => exact rest _ _ _ states
  | threw states => exact .threw (thrown _ _ states)
  | undefined => exact .undefined

end Outcome.Related
end Celestite
