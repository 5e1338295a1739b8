import Mathlib.Data.Fintype.Basic
import Mathlib.Data.Finset.Max
import Mathlib.Data.Nat.Bitwise
import Mathlib.Order.Compare

/-!
# Interleaved bits

A code in which `n` numbers take turns with their bits is ordered by the number that differs in the
highest bit. Of several that differ there the first one decides.
-/

namespace Celestite.Sequential

/-- The highest bit in which the numbers differ. -/
structure TopBit (a b i : ℕ) : Prop where
  differ : a.testBit i ≠ b.testBit i
  above : ∀ j, i < j → a.testBit j = b.testBit j

/-- Of each `n` bits the highest one belongs to the first number. -/
def Interleaves {n : ℕ} (x : Fin n → ℕ) (code : ℕ) : Prop :=
  ∀ (i : ℕ) (k : Fin n), code.testBit (n * i + (n - 1 - k)) = (x k).testBit i

/-- `k` is the first of those that differ in the highest bit. -/
def Decides {n : ℕ} (x y : Fin n → ℕ) (k : Fin n) : Prop :=
  ∃ i, TopBit (x k) (y k) i ∧ ∀ k' i', TopBit (x k') (y k') i' → i' < i ∨ i' = i ∧ k ≤ k'

namespace TopBit
variable {a b a' b' i j : ℕ}

theorem symm (top : TopBit a b i) : TopBit b a i := ⟨top.differ.symm, fun j above => (top.above j above).symm⟩

theorem exists_of_ne (ne : a ≠ b) : ∃ i, TopBit a b i := by
  have some : a ^^^ b ≠ 0 := fun none => ne (Nat.xor_eq_zero_iff.mp none)
  obtain ⟨i, bit, above⟩ := Nat.exists_most_significant_bit some
  refine ⟨i, ?_, ?_⟩
  · rw [Nat.testBit_xor] at bit
    simpa using bit
  · intro j higher
    have same := above j higher
    rw [Nat.testBit_xor] at same
    simpa using same

theorem of_lt (ha : a < 2 ^ (i + 1)) (hb : b < 2 ^ (i + 1)) (differ : a.testBit i ≠ b.testBit i) : TopBit a b i := by
  refine ⟨differ, ?_⟩
  intro j above
  have le : 2 ^ (i + 1) ≤ 2 ^ j := Nat.pow_le_pow_right (by decide) above
  rw [Nat.testBit_lt_two_pow (ha.trans_le le), Nat.testBit_lt_two_pow (hb.trans_le le)]

theorem ne (top : TopBit a b i) : a ≠ b := by
  rintro rfl
  exact top.differ rfl

theorem unique (top : TopBit a b i) (top' : TopBit a b j) : i = j := by
  rcases lt_trichotomy i j with lt | same | gt
  · exact absurd (top.above j lt) top'.differ
  · exact same
  · exact absurd (top'.above i gt) top.differ

theorem lt_of_bit (top : TopBit a b i) (bit : b.testBit i = true) : a < b := by
  have unset : a.testBit i = false := by
    have differ := top.differ
    rw [bit] at differ
    simpa using differ
  exact Nat.lt_of_testBit i unset bit top.above

theorem lt_iff (top : TopBit a b i) : a < b ↔ b.testBit i = true := by
  refine ⟨?_, top.lt_of_bit⟩
  intro lt
  by_contra unset
  have bit : a.testBit i = true := by
    have differ := top.differ
    rw [Bool.not_eq_true] at unset
    rw [unset] at differ
    simpa using differ
  exact absurd (top.symm.lt_of_bit bit) (not_lt.mpr lt.le)

/-- Pairs with the same bits in the highest places in which they differ are in the same order. -/
theorem compare_eq (top : TopBit a b i) (top' : TopBit a' b' j) (left : a.testBit i = a'.testBit j)
    (right : b.testBit i = b'.testBit j) : compare a b = compare a' b' := by
  have less : a < b ↔ a' < b' := by rw [top.lt_iff, top'.lt_iff, right]
  have more : b < a ↔ b' < a' := by rw [top.symm.lt_iff, top'.symm.lt_iff, left]
  rcases lt_or_gt_of_ne top.ne with lt | gt
  · rw [compare_lt_iff_lt.mpr lt, compare_lt_iff_lt.mpr (less.mp lt)]
  · rw [compare_gt_iff_gt.mpr gt, compare_gt_iff_gt.mpr (more.mp gt)]

end TopBit

section
variable {n : ℕ} {x y : Fin n → ℕ} {k : Fin n} {c d i : ℕ}

theorem Decides.ne (decides : Decides x y k) : x k ≠ y k := by
  obtain ⟨i, top, -⟩ := decides
  exact top.ne

theorem exists_decides (ne : x ≠ y) : ∃ k, Decides x y k := by
  obtain ⟨k₀, differ⟩ := Function.ne_iff.mp ne
  have tops (k : Fin n) : ∃ i, x k ≠ y k → TopBit (x k) (y k) i := by
    by_cases same : x k = y k
    · exact ⟨0, fun differ => absurd same differ⟩
    · obtain ⟨i, top⟩ := TopBit.exists_of_ne same
      exact ⟨i, fun _ => top⟩
  choose top isTop using tops
  -- the place of the highest bit in a code is the same for no two of them
  obtain ⟨k, among, most⟩ := Finset.exists_max_image (Finset.univ.filter fun k => x k ≠ y k)
    (fun k => n * top k + (n - 1 - k)) ⟨k₀, by simpa using differ⟩
  simp only [Finset.mem_filter, Finset.mem_univ, true_and] at among most
  refine ⟨k, top k, isTop k among, ?_⟩
  intro k' i' top'
  have le := most k' top'.ne
  obtain rfl := top'.unique (isTop k' top'.ne)
  rcases lt_trichotomy (top k') (top k) with lower | same | higher
  · exact .inl lower
  · right
    rw [same] at le
    exact ⟨same, by omega⟩
  · have more := Nat.mul_le_mul_left n (Nat.succ_le_of_lt higher)
    rw [Nat.mul_succ] at more
    omega

/-- The place in a code of the bit that decides. -/
theorem Interleaves.topBit (hx : Interleaves x c) (hy : Interleaves y d) (top : TopBit (x k) (y k) i)
    (first : ∀ k' i', TopBit (x k') (y k') i' → i' < i ∨ i' = i ∧ k ≤ k') :
    TopBit c d (n * i + (n - 1 - k)) := by
  constructor
  · rw [hx, hy]
    exact top.differ
  · intro j higher
    have pos : 0 < n := k.pos
    have within := Nat.mod_lt j pos
    have place : j = n * (j / n) + (n - 1 - (n - 1 - j % n)) := by
      have whole := Nat.div_add_mod j n
      omega
    generalize j / n = i' at place
    obtain ⟨k', rest⟩ : ∃ k' : Fin n, n - 1 - j % n = k' := ⟨⟨n - 1 - j % n, by omega⟩, rfl⟩
    rw [rest] at place
    rw [place, hx, hy]
    by_contra differ
    obtain ⟨top', isTop⟩ := TopBit.exists_of_ne (fun same => differ (congrArg (Nat.testBit · i') same))
    have le : i' ≤ top' := by
      by_contra above
      exact differ (isTop.above i' (not_le.mp above))
    rcases first k' top' isTop with lower | ⟨same, after⟩
    · have less := Nat.mul_le_mul_left n (Nat.succ_le_of_lt (le.trans_lt lower))
      rw [Nat.mul_succ] at less
      omega
    · have less := Nat.mul_le_mul_left n (le.trans same.le)
      omega

theorem Decides.compare_eq (decides : Decides x y k) (hx : Interleaves x c) (hy : Interleaves y d) :
    compare c d = compare (x k) (y k) := by
  obtain ⟨i, top, first⟩ := decides
  exact (hx.topBit hy top first).compare_eq top (hx i k) (hy i k)

theorem Interleaves.lt (hx : Interleaves x c) (hy : Interleaves y d) (le : ∀ k, x k ≤ y k) (ne : x ≠ y) :
    c < d := by
  obtain ⟨k, decides⟩ := exists_decides ne
  have less : x k < y k := lt_of_le_of_ne (le k) decides.ne
  rw [← compare_lt_iff_lt, decides.compare_eq hx hy, compare_lt_iff_lt]
  exact less

/-- Each bit of a code belongs to one of the numbers. -/
theorem exists_place (pos : 0 < n) (j : ℕ) : ∃ (i : ℕ) (k : Fin n), j = n * i + (n - 1 - k) := by
  have within := Nat.mod_lt j pos
  have whole := Nat.div_add_mod j n
  refine ⟨j / n, ⟨n - 1 - j % n, by omega⟩, ?_⟩
  simp only
  omega

theorem Interleaves.eq_iff (hx : Interleaves x c) (hy : Interleaves y d) (pos : 0 < n) : c = d ↔ x = y := by
  constructor
  · rintro rfl
    funext k
    apply Nat.eq_of_testBit_eq
    intro i
    rw [← hx, hy]
  · rintro rfl
    apply Nat.eq_of_testBit_eq
    intro j
    obtain ⟨i, k, rfl⟩ := exists_place pos j
    rw [hx, hy]

/-- A code without its lowest digits is that of the numbers without their lowest bits. -/
theorem Interleaves.shiftRight (hx : Interleaves x c) (m : ℕ) :
    Interleaves (fun k => x k >>> m) (c >>> (n * m)) := by
  intro i k
  rw [Nat.testBit_shiftRight, Nat.testBit_shiftRight, ← Nat.add_assoc, ← Nat.mul_add, hx]

theorem Interleaves.shiftLeft (hx : Interleaves x c) (m : ℕ) :
    Interleaves (fun k => x k <<< m) (c <<< (n * m)) := by
  intro i k
  rw [Nat.testBit_shiftLeft, Nat.testBit_shiftLeft]
  have pos : 0 < n := k.pos
  rcases le_or_gt m i with above | below
  · obtain ⟨i, rfl⟩ := Nat.exists_eq_add_of_le above
    have place : n * (m + i) + (n - 1 - k) - n * m = n * i + (n - 1 - k) := by
      rw [Nat.mul_add]
      omega
    have inside : n * m ≤ n * (m + i) + (n - 1 - k) := by
      rw [Nat.mul_add]
      omega
    rw [place, hx, Nat.add_sub_cancel_left]
    simp [inside]
  · have less := Nat.mul_le_mul_left n (Nat.succ_le_of_lt below)
    rw [Nat.mul_succ] at less
    have outside : ¬n * m ≤ n * i + (n - 1 - k) := by omega
    simp [outside, below]

end
end Celestite.Sequential
