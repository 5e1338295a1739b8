import Mathlib.Data.Nat.Notation
import Mathlib.Tactic.SplitIfs
import Celestite.Sequential.Program

/-!
# Loops

`while (more b) b = body(b);` with a bound on the passes. Where the bound suffices a greater one
gives the same, so a loop that ends has one result.
-/

namespace Celestite.Program
universe u
variable {σ ε φ : Type*} {β : Type u}

/-- `none` where the passes do not suffice. -/
def loop (more : β → Bool) (body : β → Program σ ε φ β) : ℕ → β → σ → Option (Outcome σ ε φ Unit)
  | 0, _, _ => none
  | passes + 1, b, s =>
    if more b then
      match body b s with
      | .ok b' s' => loop more body passes b' s'
      | .threw e s' => some (.threw e s')
      | .undefined x => some (.undefined x)
    else some (.ok () s)

def Ends (more : β → Bool) (body : β → Program σ ε φ β) (b : β) (s : σ) (r : Outcome σ ε φ Unit) : Prop :=
  ∃ passes, loop more body passes b s = some r

variable {more : β → Bool} {body : β → Program σ ε φ β} {b b' : β} {s s' : σ} {r r' : Outcome σ ε φ Unit}

theorem loop_mono {passes passes' : ℕ} (ended : loop more body passes b s = some r)
    (le : passes ≤ passes') : loop more body passes' b s = some r := by
  induction passes generalizing passes' b s with
  | zero => contradiction
  | succ passes ih =>
    cases passes' with
    | zero => omega
    | succ passes' =>
      unfold loop at ended ⊢
      split_ifs at ended ⊢ with goes
      · cases pass : body b s with
        | ok b' s' =>
          rw [pass] at ended
          exact ih ended (Nat.le_of_succ_le_succ le)
        | threw | undefined => rwa [pass] at ended
      · exact ended

theorem Ends.unique (h : Ends more body b s r) (h' : Ends more body b s r') : r = r' := by
  obtain ⟨passes, ended⟩ := h
  obtain ⟨passes', ended'⟩ := h'
  have both := loop_mono ended (Nat.le_max_left passes passes')
  have both' := loop_mono ended' (Nat.le_max_right passes passes')
  exact Option.some.inj (both.symm.trans both')

theorem ends_done (stops : more b = false) : Ends more body b s (.ok () s) := by
  refine ⟨1, ?_⟩
  rw [loop, stops]
  rfl

theorem ends_next (goes : more b = true) (pass : body b s = .ok b' s') (rest : Ends more body b' s' r) :
    Ends more body b s r := by
  obtain ⟨passes, ended⟩ := rest
  refine ⟨passes + 1, ?_⟩
  rw [loop, goes, pass]
  exact ended

theorem ends_threw {e : ε} (goes : more b = true) (pass : body b s = .threw e s') :
    Ends more body b s (.threw e s') := by
  refine ⟨1, ?_⟩
  rw [loop, goes, pass]
  rfl

end Celestite.Program
