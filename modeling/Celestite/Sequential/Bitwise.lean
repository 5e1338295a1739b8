import Mathlib.Data.Nat.Bitwise

/-!
# Maps that keep disjunctions

A map of words that keeps `0` and `|||` is known from the words with a single bit: it moves each
bit of its argument on its own.
-/

namespace Celestite.Sequential

/-- `f` keeps `0` and `|||`. -/
structure Bitwise {w : ℕ} (f : BitVec w → BitVec w) : Prop where
  zero : f 0 = 0
  or : ∀ x y, f (x ||| y) = f x ||| f y

namespace Bitwise
variable {w : ℕ} {f g : BitVec w → BitVec w} {x : BitVec w} {i j n : ℕ}

theorem comp (hg : Bitwise g) (hf : Bitwise f) : Bitwise fun x => g (f x) where
  zero := by rw [hf.zero, hg.zero]
  or x y := by rw [hf.or, hg.or]

theorem shiftLeft_mask (k : ℕ) (m : BitVec w) : Bitwise fun x => (x ||| x <<< k) &&& m where
  zero := by simp
  or x y := by
    rw [BitVec.shiftLeft_or_distrib, ← BitVec.and_or_distrib_right]
    ac_rfl

theorem shiftRight_mask (k : ℕ) (m : BitVec w) : Bitwise fun x => (x ||| x >>> k) &&& m where
  zero := by simp
  or x y := by
    rw [BitVec.ushiftRight_or_distrib, ← BitVec.and_or_distrib_right]
    ac_rfl

/-- The bits of `f x` are those of the `f (2 ^ i)` for the bits `i` of `x`. -/
theorem getLsbD_below (hf : Bitwise f) (short : ∀ i ≥ n, x.getLsbD i = false) :
    (f x).getLsbD j = true ↔ ∃ i < n, x.getLsbD i = true ∧ (f (BitVec.twoPow w i)).getLsbD j = true := by
  induction n generalizing x with
  | zero =>
    have zero : x = 0 := BitVec.eq_of_getLsbD_eq fun i _ => by simp [short i (Nat.zero_le i)]
    rw [zero, hf.zero]
    simp
  | succ n ih =>
    -- the highest bit is taken off, and the rest goes to the induction hypothesis
    have bits : ∀ i, (x &&& ~~~BitVec.twoPow w n).getLsbD i = (x.getLsbD i && decide (i ≠ n)) := by
      intro i
      by_cases wide : i < w
      · simp [wide, eq_comm]
      · simp [BitVec.getLsbD_of_ge _ _ (not_lt.mp wide)]
    have rest := ih (x := x &&& ~~~BitVec.twoPow w n) fun i above => by
      rw [bits]
      by_cases last : i = n
      · simp [last]
      · simp [short i (by omega)]
    simp only [bits] at rest
    cases bit : x.getLsbD n with
    | true =>
      have split : x = (x &&& ~~~BitVec.twoPow w n) ||| BitVec.twoPow w n := by
        apply BitVec.eq_of_getLsbD_eq
        intro i wide
        rw [BitVec.getLsbD_or, bits, BitVec.getLsbD_twoPow]
        by_cases last : i = n
        · subst last
          simp [bit, wide]
        · simp [last, Ne.symm last]
      have both : (f x).getLsbD j = ((f (x &&& ~~~BitVec.twoPow w n)).getLsbD j ||
          (f (BitVec.twoPow w n)).getLsbD j) := by
        rw [← BitVec.getLsbD_or, ← hf.or, ← split]
      rw [both, Bool.or_eq_true]
      constructor
      · rintro (low | last)
        · obtain ⟨i, below, bit', moved⟩ := rest.mp low
          exact ⟨i, by omega, (Bool.and_eq_true_iff.mp bit').1, moved⟩
        · exact ⟨n, by omega, bit, last⟩
      · rintro ⟨i, below, bit', moved⟩
        by_cases last : i = n
        · subst last
          exact .inr moved
        · exact .inl (rest.mpr ⟨i, by omega, by simp [bit', last], moved⟩)
    | false =>
      refine (ih fun i above => ?_).trans ?_
      · by_cases last : i = n
        · rw [last, bit]
        · exact short i (by omega)
      · constructor
        · rintro ⟨i, below, found⟩
          exact ⟨i, by omega, found⟩
        · rintro ⟨i, below, bit', moved⟩
          have other : i ≠ n := fun last => by simp [last, bit] at bit'
          exact ⟨i, by omega, bit', moved⟩

/-- If each bit `src i` goes to bit `dst i`, these are the bits of `f x`. -/
theorem getLsbD_moved (hf : Bitwise f) (n : ℕ) (src dst : ℕ → ℕ)
    (only : ∀ j, x.getLsbD j = true → ∃ i < n, j = src i)
    (single : ∀ i < n, f (BitVec.twoPow w (src i)) = BitVec.twoPow w (dst i)) :
    (f x).getLsbD j = true ↔ ∃ i < n, x.getLsbD (src i) = true ∧ dst i < w ∧ dst i = j := by
  rw [hf.getLsbD_below (n := w) fun i wide => BitVec.getLsbD_of_ge x i wide]
  constructor
  · rintro ⟨k, -, bit, moved⟩
    obtain ⟨i, below, rfl⟩ := only k bit
    rw [single i below, BitVec.getLsbD_twoPow] at moved
    simp only [Bool.and_eq_true, decide_eq_true_eq] at moved
    exact ⟨i, below, bit, moved⟩
  · rintro ⟨i, below, bit, wide, rfl⟩
    refine ⟨src i, BitVec.lt_of_getLsbD bit, bit, ?_⟩
    rw [single i below, BitVec.getLsbD_twoPow]
    simp [wide]

end Bitwise
end Celestite.Sequential
