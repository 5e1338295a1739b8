import Mathlib.Order.Bounds.Basic
import Celestite.Arena.Refinement

/-!
# When a request fits

Any size a caller can pass, up to the largest `std::ptrdiff_t`. The check of `allocate` adds the
padding to the size first.
-/

namespace Celestite.Arena
open Celestite.Sequential

/-- `allocate` hands out the block at `p` if it fits and nothing otherwise. -/
def Serves (a : Arena) (size alignment : BitVec 64) (p : ℕ) : Prop :=
  if p + size.toNat ≤ a.end_.toNat then
    a.allocate size alignment =
      (some (BitVec.ofNat 64 p), { a with cur := BitVec.ofNat 64 (p + size.toNat) })
  else a.allocate size alignment = (none, a)

instance (a : Arena) (size alignment : BitVec 64) (p : ℕ) : Decidable (a.Serves size alignment p) := by
  unfold Serves
  infer_instance

section
variable {a : Arena} {b : Bump} {size alignment : BitVec 64} {p k : ℕ}

theorem isLeast_place (positive : 0 < alignment.toNat) :
    IsLeast {m | alignment.toNat ∣ m ∧ a.cur.toNat ≤ m}
      (a.cur.toNat + padding alignment.toNat a.cur.toNat) := by
  constructor
  · exact ⟨dvd_add_padding positive, Nat.le_add_right _ _⟩
  · rintro m ⟨multiple, above⟩
    exact add_padding_le positive multiple above

theorem toInt_of_large {x : BitVec 64} (large : 2 ^ 63 ≤ x.toNat) : x.toInt < 0 := by
  have wide := x.isLt
  rw [BitVec.toInt_eq_toNat_cond, if_neg (by omega)]
  omega

theorem block_toNat (power : alignment.toNat = 2 ^ k) (small : k ≤ 62) (signed : size.toNat < 2 ^ 63) :
    (a.pad alignment).toNat = padding alignment.toNat a.cur.toNat ∧
      (a.pad alignment + size).toNat = padding alignment.toNat a.cur.toNat + size.toNat := by
  have pad : (a.pad alignment).toNat = padding alignment.toNat a.cur.toNat := neg_and_mask power
  have short : padding alignment.toNat a.cur.toNat < alignment.toNat :=
    padding_lt (power ▸ Nat.two_pow_pos k)
  have bound : (2 : ℕ) ^ k ≤ 2 ^ 62 := Nat.pow_le_pow_right (by decide) small
  refine ⟨pad, ?_⟩
  rw [BitVec.toNat_add, pad]
  omega

theorem allocate_granted (fits : ¬(a.end_ - a.cur).slt (a.pad alignment + size) = true)
    (place : (a.pad alignment).toNat = padding alignment.toNat a.cur.toNat) :
    a.allocate size alignment = (some (BitVec.ofNat 64 (a.cur.toNat + padding alignment.toNat a.cur.toNat)),
      { a with cur := BitVec.ofNat 64 (a.cur.toNat + padding alignment.toNat a.cur.toNat + size.toNat) }) := by
  have block : a.cur + a.pad alignment =
      BitVec.ofNat 64 (a.cur.toNat + padding alignment.toNat a.cur.toNat) := by
    apply BitVec.eq_of_toNat_eq
    rw [BitVec.toNat_add, place, BitVec.toNat_ofNat]
  have after : a.cur + a.pad alignment + size =
      BitVec.ofNat 64 (a.cur.toNat + padding alignment.toNat a.cur.toNat + size.toNat) := by
    apply BitVec.eq_of_toNat_eq
    rw [BitVec.toNat_add, BitVec.toNat_add, place, BitVec.toNat_ofNat, Nat.mod_add_mod]
  rw [allocate, if_neg fits, ← after, ← block]

/-- The request is served as it should be exactly where the sum of padding and size is no larger
than `std::ptrdiff_t` can count. -/
theorem serves_iff (within : a.cur.toNat ≤ a.end_.toNat)
    (span : a.end_.toNat - a.cur.toNat < 2 ^ 63) (signed : 0 ≤ size.toInt)
    (power : ∃ k ≤ 62, alignment.toNat = 2 ^ k)
    (least : IsLeast {m | alignment.toNat ∣ m ∧ a.cur.toNat ≤ m} p) :
    a.Serves size alignment p ↔ p - a.cur.toNat + size.toNat < 2 ^ 63 := by
  obtain ⟨k, small, power⟩ := power
  have size_lt : size.toNat < 2 ^ 63 := by
    by_contra large
    exact absurd signed (not_le.mpr (toInt_of_large (by omega)))
  obtain ⟨pad, sum⟩ := block_toNat (a := a) power small size_lt
  obtain rfl := least.unique (isLeast_place (power ▸ Nat.two_pow_pos k))
  have frees : Frees a ⟨a.cur.toNat, a.end_.toNat⟩ := ⟨rfl, rfl, within, span⟩
  have capacity : (a.end_ - a.cur).toInt = (a.end_.toNat - a.cur.toNat : ℕ) := frees.capacity
  unfold Serves
  rcases Nat.lt_or_ge (padding alignment.toNat a.cur.toNat + size.toNat) (2 ^ 63) with exactly | wrapped
  · -- the comparison is one of natural numbers
    have stays : (a.end_ - a.cur).slt (a.pad alignment + size) = true ↔ a.end_.toNat - a.cur.toNat <
        padding alignment.toNat a.cur.toNat + size.toNat := by
      rw [BitVec.slt, decide_eq_true_iff, capacity, BitVec.toInt_eq_toNat_of_lt (by omega), sum]
      omega
    refine iff_of_true ?_ (by omega)
    split_ifs with fits
    · exact allocate_granted (by rw [stays]; omega) pad
    · rw [allocate, if_pos (by rw [stays]; omega)]
  · -- the sum is negative, so a block is handed out that does not fit
    have passes : ¬(a.end_ - a.cur).slt (a.pad alignment + size) = true := by
      have negative : (a.pad alignment + size).toInt < 0 := toInt_of_large (by omega)
      rw [BitVec.slt, decide_eq_true_iff, capacity]
      omega
    refine iff_of_false ?_ (by omega)
    rw [if_neg (by omega), allocate_granted passes pad]
    simp

theorem least_two : (∃ k ≤ 62, (2 : BitVec 64).toNat = 2 ^ k) ∧
    IsLeast {m | (2 : BitVec 64).toNat ∣ m ∧ (1 : BitVec 64).toNat ≤ m} 2 :=
  ⟨⟨1, by decide, rfl⟩, @isLeast_place ⟨1, 100⟩ 2 (by decide)⟩

/-- From the address 1 and with the alignment 2: the largest size but one, and the largest. -/
theorem serves_iff_one : Serves ⟨1, 100⟩ 9223372036854775806 2 2 ∧ ¬Serves ⟨1, 100⟩ 9223372036854775807 2 2 := by
  obtain ⟨power, least⟩ := least_two
  have fits := @serves_iff ⟨1, 100⟩ 9223372036854775806 2 2 (by decide) (by decide) (by decide) power least
  have wraps := @serves_iff ⟨1, 100⟩ 9223372036854775807 2 2 (by decide) (by decide) (by decide) power least
  exact ⟨fits.mpr (by decide), fun serves => absurd (wraps.mp serves) (by decide)⟩

/-- A block of the largest size is handed out from a range of 99 bytes. -/
theorem serves_too_much : ¬∀ (a : Arena) (size alignment : BitVec 64) (p : ℕ), 0 < a.cur.toNat →
    a.cur.toNat ≤ a.end_.toNat → a.end_.toNat - a.cur.toNat < 2 ^ 63 → 0 ≤ size.toInt →
    (∃ k ≤ 62, alignment.toNat = 2 ^ k) →
    IsLeast {m | alignment.toNat ∣ m ∧ a.cur.toNat ≤ m} p → a.Serves size alignment p := by
  intro claimed
  obtain ⟨power, least⟩ := least_two
  have serves := claimed ⟨1, 100⟩ 9223372036854775807 2 2 (by decide) (by decide) (by decide) (by decide) power least
  revert serves
  decide

end
end Celestite.Arena
