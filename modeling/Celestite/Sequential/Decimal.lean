import Mathlib.Data.Nat.Notation
import Mathlib.Tactic.Common

/-!
# Decimal numbers

A number from its decimal digits, the most significant one first.
-/

namespace Celestite.Sequential.Decimal

def digitChar (d : ℕ) : Char := Char.ofNat ('0'.toNat + d)

def digitValue (c : Char) : ℕ := c.toNat - '0'.toNat

def value (cs : List Char) : ℕ := cs.foldl (fun n c => 10 * n + digitValue c) 0

/-- Digits that start with 0 only for the number 0. -/
structure Canonical (cs : List Char) : Prop where
  nonempty : cs ≠ []
  digits : ∀ c ∈ cs, c.isDigit = true
  leading : cs.head? = some '0' → cs = ['0']

variable {cs : List Char} {c : Char} {d : ℕ}

theorem isDigit_digitChar : ∀ d < 10, (digitChar d).isDigit = true := by decide

theorem digitValue_digitChar : ∀ d < 10, digitValue (digitChar d) = d := by decide

theorem value_snoc : value (cs ++ [c]) = 10 * value cs + digitValue c := by
  rw [value, List.foldl_append]
  rfl

theorem value_singleton : value [c] = digitValue c := by
  have snoc := @value_snoc [] c
  rwa [show value [] = 0 from rfl, Nat.mul_zero, Nat.zero_add] at snoc

theorem canonical_digit (small : d < 10) : Canonical [digitChar d] where
  nonempty := by simp
  digits c mem := by
    obtain rfl := List.mem_singleton.mp mem
    exact isDigit_digitChar d small
  leading zero := by
    rw [List.head?_cons, Option.some.injEq] at zero
    rw [zero]

/-- A digit after a number that is not 0. -/
theorem Canonical.snoc (canonical : Canonical cs) (pos : 0 < value cs) (small : d < 10) :
    Canonical (cs ++ [digitChar d]) where
  nonempty := by simp
  digits c mem := by
    rcases List.mem_append.mp mem with mem | mem
    · exact canonical.digits c mem
    · obtain rfl := List.mem_singleton.mp mem
      exact isDigit_digitChar d small
  leading zero := by
    cases cs with
    | nil => exact absurd rfl canonical.nonempty
    | cons x cs =>
      rw [canonical.leading zero] at pos
      exact absurd pos (by decide)

end Celestite.Sequential.Decimal
