import Mathlib.Data.Set.Image
import Celestite.Morton.Order

/-!
# Cells of an octree

The codes of the points in an aligned cube follow one another, from that of its lowest corner on.
-/

namespace Celestite.Morton
open Celestite.Sequential

/-- The points are in one aligned cube with sides of `2 ^ k`. -/
def SameCell (k : ℕ) (p q : Point) : Prop := ∀ i, q.coordinate i / 2 ^ k = p.coordinate i / 2 ^ k

/-- The lowest code in the cube of the point. -/
def firstCode (k : ℕ) (p : Point) : ℕ := 8 ^ k * (p.code.toNat / 8 ^ k)

variable {k : ℕ} {p q : Point}

theorem eight_pow (k : ℕ) : 8 ^ k = 2 ^ (3 * k) := (pow_mul 2 3 k).symm

theorem same_cell_iff : SameCell k p q ↔ q.code.toNat / 8 ^ k = p.code.toNat / 8 ^ k := by
  have left := q.interleaves.shiftRight k
  have right := p.interleaves.shiftRight k
  rw [eight_pow, ← Nat.shiftRight_eq_div_pow, ← Nat.shiftRight_eq_div_pow, left.eq_iff right (by decide), funext_iff]
  simp only [Nat.shiftRight_eq_div_pow, SameCell]

theorem Point.code_lt (p : Point) : p.code.toNat < 2 ^ 63 := by
  have decoded := @morton3d_demorton3d p.code
  rw [code, demorton3d_morton3d p.x_small p.y_small p.z_small] at decoded
  rw [code]
  exact decoded.trans_lt (Nat.mod_lt _ (by decide))

theorem Point.exists_code {code : BitVec 64} (small : code.toNat < 2 ^ 63) : ∃ p : Point, p.code = code := by
  refine ⟨⟨(demorton3d code)[0], (demorton3d code)[1], (demorton3d code)[2], demorton3d_small _, demorton3d_small _,
    demorton3d_small _⟩, ?_⟩
  apply BitVec.eq_of_toNat_eq
  exact morton3d_demorton3d.trans (Nat.mod_eq_of_lt small)

theorem first_code_room (within : k ≤ 21) (p : Point) : firstCode k p + 8 ^ k ≤ 2 ^ 63 := by
  have whole : (2 : ℕ) ^ 63 = 8 ^ k * 8 ^ (21 - k) := by
    rw [← pow_add, Nat.add_sub_cancel' within]
    rfl
  have below := p.code_lt
  rw [whole] at below ⊢
  have digits := Nat.div_lt_of_lt_mul below
  calc firstCode k p + 8 ^ k = 8 ^ k * (p.code.toNat / 8 ^ k + 1) := by rw [firstCode, Nat.mul_succ]
    _ ≤ 8 ^ k * 8 ^ (21 - k) := Nat.mul_le_mul_left _ digits

theorem codes_of_cell (within : k ≤ 21) (p : Point) : Point.code '' {q | SameCell k p q} =
    {code | firstCode k p ≤ code.toNat ∧ code.toNat < firstCode k p + 8 ^ k} := by
  have pos : 0 < 8 ^ k := Nat.pow_pos (by decide)
  ext code
  constructor
  · rintro ⟨q, same, rfl⟩
    have digits := same_cell_iff.mp same
    change firstCode k p ≤ _ ∧ _ < firstCode k p + 8 ^ k
    rw [firstCode, ← digits]
    exact ⟨Nat.mul_div_le _ _, Nat.lt_mul_div_succ _ pos⟩
  · rintro ⟨low, high⟩
    have small := high.trans_le (first_code_room within p)
    obtain ⟨q, rfl⟩ := Point.exists_code small
    refine ⟨q, ?_, rfl⟩
    apply same_cell_iff.mpr
    apply Nat.div_eq_of_lt_le
    · rw [Nat.mul_comm]
      exact low
    · rw [Nat.succ_mul, Nat.mul_comm]
      exact high

theorem exists_corner (within : k ≤ 21) (p : Point) : ∃ corner : Point, corner.code.toNat = firstCode k p ∧
    ∀ i, corner.coordinate i = 2 ^ k * (p.coordinate i / 2 ^ k) := by
  have room := first_code_room within p
  have pos : 0 < 8 ^ k := Nat.pow_pos (by decide)
  have fits : (BitVec.ofNat 64 (firstCode k p)).toNat = firstCode k p := by
    rw [BitVec.toNat_ofNat]
    apply Nat.mod_eq_of_lt
    omega
  obtain ⟨q, coded⟩ := Point.exists_code (fits.trans_lt (by omega))
  have first : q.code.toNat = firstCode k p := (congrArg BitVec.toNat coded).trans fits
  refine ⟨q, first, fun i => ?_⟩
  have corner := q.interleaves
  have cleared := (p.interleaves.shiftRight k).shiftLeft k
  have same : (p.code.toNat >>> (3 * k)) <<< (3 * k) = firstCode k p := by
    rw [Nat.shiftLeft_eq, Nat.shiftRight_eq_div_pow, ← eight_pow, Nat.mul_comm, firstCode]
  rw [same] at cleared
  rw [first] at corner
  have coordinates := congrFun ((corner.eq_iff cleared (by decide)).mp rfl) i
  rw [coordinates, Nat.shiftLeft_eq, Nat.shiftRight_eq_div_pow, Nat.mul_comm]

/-- Points are in one cube if their codes agree but for the lowest digits to base 8; the codes of the cube are
`8 ^ k` that follow one another, and the first one is that of the corner with the lowest coordinates. -/
theorem cells_contiguous (within : k ≤ 21) (p : Point) :
    (∀ q, SameCell k p q ↔ q.code.toNat / 8 ^ k = p.code.toNat / 8 ^ k) ∧
    Point.code '' {q | SameCell k p q} =
      {code | firstCode k p ≤ code.toNat ∧ code.toNat < firstCode k p + 8 ^ k} ∧
    ∃ corner : Point, corner.code.toNat = firstCode k p ∧
      ∀ i, corner.coordinate i = 2 ^ k * (p.coordinate i / 2 ^ k) :=
  ⟨fun _ => same_cell_iff, codes_of_cell within p, exists_corner within p⟩

/-- The cube with sides of 2 that (5, 2, 7) is in starts at (4, 2, 6). -/
theorem cells_contiguous_two : ∃ corner : Point, corner.code.toNat = 344 ∧ ∀ i, corner.coordinate i = ![4, 2, 6] i := by
  obtain ⟨-, -, corner, first, lowest⟩ := cells_contiguous (by decide : 1 ≤ 21)
    ⟨5, 2, 7, by decide, by decide, by decide⟩
  refine ⟨corner, first.trans (by decide), fun i => (lowest i).trans ?_⟩
  match i with
  | 0 | 1 | 2 => rfl

end Celestite.Morton
