import Mathlib.Data.Nat.ModEq

/-!
# Positions on a cycle

The positions `(first + i) % max` for `i < max` are all positions below `max`, each once.
-/

namespace Celestite.Cyclic

/-- The position `i` places after `first` on a cycle of `max` places. -/
def place (first max i : ℕ) : ℕ := (first + i) % max

variable {first max i j : ℕ}

theorem place_lt (pos : 0 < max) : place first max i < max := Nat.mod_lt _ pos

@[simp] theorem place_zero (h : first < max) : place first max 0 = first := Nat.mod_eq_of_lt h

theorem place_injective (hi : i < max) (hj : j < max) (same : place first max i = place first max j) :
    i = j := by
  have cancelled : i ≡ j [MOD max] := Nat.ModEq.add_left_cancel' first same
  rwa [Nat.ModEq, Nat.mod_eq_of_lt hi, Nat.mod_eq_of_lt hj] at cancelled

theorem place_surjective (hf : first < max) (hj : j < max) : ∃ i < max, place first max i = j := by
  rcases Nat.lt_or_ge j first with before | after
  · refine ⟨j + max - first, by omega, ?_⟩
    rw [place, show first + (j + max - first) = j + max by omega, Nat.add_mod_right,
      Nat.mod_eq_of_lt hj]
  · refine ⟨j - first, by omega, ?_⟩
    rw [place, show first + (j - first) = j by omega, Nat.mod_eq_of_lt hj]

theorem place_succ : place ((first + 1) % max) max i = place first max (i + 1) := by
  rw [place, place, Nat.mod_add_mod, Nat.add_assoc, Nat.add_comm 1 i]

theorem place_turn (hf : first < max) : place first max max = first := by
  rw [place, Nat.add_mod_right, Nat.mod_eq_of_lt hf]

end Celestite.Cyclic
