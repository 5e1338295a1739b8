import Mathlib.Data.Fin.VecNotation
import Celestite.Morton.Inverse
import Celestite.Sequential.Interleaving

/-!
# The order of codes

Codes are ordered as the coordinates that differ in the highest bit, so a code grows with each of its
coordinates.
-/

namespace Celestite.Morton
open Celestite.Sequential

/-- Coordinates of 21 bits. -/
structure Point where
  x : BitVec 64
  y : BitVec 64
  z : BitVec 64
  x_small : x.toNat < 2 ^ 21
  y_small : y.toNat < 2 ^ 21
  z_small : z.toNat < 2 ^ 21
  deriving DecidableEq

namespace Point

def coordinate (p : Point) : Fin 3 → ℕ := ![p.x.toNat, p.y.toNat, p.z.toNat]

def code (p : Point) : BitVec 64 := morton3d p.x p.y p.z

variable {p q : Point}

theorem interleaves (p : Point) : Interleaves p.coordinate p.code.toNat := by
  intro i k
  rw [BitVec.testBit_toNat, code, getLsbD_morton3d p.x_small p.y_small p.z_small]
  match k with
  | 0 | 1 | 2 => simp [coordinate, Nat.mul_add_div, BitVec.testBit_toNat]

theorem coordinate_ne (ne : p ≠ q) : p.coordinate ≠ q.coordinate := by
  intro same
  apply ne
  have x := congrFun same 0
  have y := congrFun same 1
  have z := congrFun same 2
  cases p
  cases q
  rw [mk.injEq]
  exact ⟨BitVec.eq_of_toNat_eq x, BitVec.eq_of_toNat_eq y, BitVec.eq_of_toNat_eq z⟩

theorem code_le (le : ∀ k, p.coordinate k ≤ q.coordinate k) : p.code ≤ q.code := by
  by_cases same : p = q
  · rw [same]
    exact BitVec.le_refl _
  · have lt := p.interleaves.lt q.interleaves le (coordinate_ne same)
    exact BitVec.le_def.mpr lt.le

end Point

/-- Codes compare as the coordinates that differ in the highest bit, the first of them where several do;
so codes grow with the coordinates, and those in a box are between those of its corners. -/
theorem codes_ordered (p q : Point) :
    ((∀ k, p.coordinate k ≤ q.coordinate k) → p.code ≤ q.code ∧ (p ≠ q → p.code < q.code)) ∧
    (p ≠ q → ∃ k, Decides p.coordinate q.coordinate k) ∧
    (∀ k, Decides p.coordinate q.coordinate k →
      compare p.code.toNat q.code.toNat = compare (p.coordinate k) (q.coordinate k)) ∧
    ∀ r : Point, (∀ k, p.coordinate k ≤ r.coordinate k ∧ r.coordinate k ≤ q.coordinate k) →
      p.code ≤ r.code ∧ r.code ≤ q.code := by
  refine ⟨?_, ?_, ?_, ?_⟩
  · intro le
    refine ⟨Point.code_le le, ?_⟩
    intro ne
    exact BitVec.lt_def.mpr (p.interleaves.lt q.interleaves le (Point.coordinate_ne ne))
  · intro ne
    exact exists_decides (Point.coordinate_ne ne)
  · intro k decides
    exact decides.compare_eq p.interleaves q.interleaves
  · intro r inside
    exact ⟨Point.code_le fun k => (inside k).1, Point.code_le fun k => (inside k).2⟩

/-- In its second coordinate (5, 2, 0) differs from (4, 4, 7) in bit 2, in the first one in bit 0, in
the third one in bit 2 as well. -/
theorem codes_ordered_second :
    (Point.code ⟨5, 2, 0, by decide, by decide, by decide⟩) <
      Point.code ⟨4, 4, 7, by decide, by decide, by decide⟩ := by
  obtain ⟨-, -, compared, -⟩ := codes_ordered ⟨5, 2, 0, by decide, by decide, by decide⟩
    ⟨4, 4, 7, by decide, by decide, by decide⟩
  have first : TopBit 5 4 0 := ⟨by decide, fun j above => by
    obtain ⟨j, rfl⟩ := Nat.exists_eq_add_of_lt above
    simp [Nat.testBit_succ]⟩
  have second : TopBit 2 4 2 := .of_lt (by decide) (by decide) (by decide)
  have third : TopBit 0 7 2 := .of_lt (by decide) (by decide) (by decide)
  have less := compared 1 ⟨2, second, fun k i top => by
    match k with
    | 0 => exact .inl (top.unique first ▸ by decide)
    | 1 => exact .inr ⟨top.unique second, le_rfl⟩
    | 2 => exact .inr ⟨top.unique third, by decide⟩⟩
  exact BitVec.lt_def.mpr (compare_lt_iff_lt.mp less)

end Celestite.Morton
