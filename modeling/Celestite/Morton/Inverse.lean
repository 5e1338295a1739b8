import Celestite.Morton.Model
import Celestite.Sequential.Bitwise

/-!
# Encoding and decoding are inverse

Every round of `pad2bit` and `unpad2bit` keeps disjunctions, so where they move each of the 21 bits
of a coordinate says what they do to all of them at once.
-/

namespace Celestite.Morton
open Celestite.Sequential

variable {x y z code : BitVec 64} {i j : ℕ}

theorem pad2bit_bitwise : Bitwise pad2bit :=
  (((((Bitwise.shiftLeft_mask 2 _).comp (.shiftLeft_mask 4 _)).comp (.shiftLeft_mask 8 _)).comp
    (.shiftLeft_mask 16 _)).comp (.shiftLeft_mask 32 _))

theorem unpad2bit_bitwise : Bitwise unpad2bit :=
  (((((Bitwise.shiftRight_mask 32 _).comp (.shiftRight_mask 16 _)).comp (.shiftRight_mask 8 _)).comp
    (.shiftRight_mask 4 _)).comp (.shiftRight_mask 2 _))

theorem pad2bit_twoPow : ∀ i < 21, pad2bit (BitVec.twoPow 64 i) = BitVec.twoPow 64 (3 * i) := by
  decide

theorem unpad2bit_twoPow : ∀ i < 21, unpad2bit (BitVec.twoPow 64 (3 * i)) = BitVec.twoPow 64 i := by
  decide

theorem getLsbD_mask : (0x1249249249249249 : BitVec 64).getLsbD j = decide (j % 3 = 0 ∧ j < 63) := by
  by_cases wide : j < 64
  · revert j
    decide
  · rw [BitVec.getLsbD_of_ge _ _ (by omega)]
    simp
    omega

theorem getLsbD_of_small (small : x.toNat < 2 ^ 21) (above : 21 ≤ i) : x.getLsbD i = false := by
  rw [← BitVec.testBit_toNat]
  exact Nat.testBit_lt_two_pow (small.trans_le (Nat.pow_le_pow_right (by decide) above))

/-- Bit `i` of a coordinate goes to bit `3 * i`. -/
theorem getLsbD_pad2bit (small : x.toNat < 2 ^ 21) :
    (pad2bit x).getLsbD j = (decide (j % 3 = 0) && x.getLsbD (j / 3)) := by
  have only : ∀ j, x.getLsbD j = true → ∃ i < 21, j = id i := by
    intro j bit
    refine ⟨j, ?_, rfl⟩
    by_contra above
    rw [getLsbD_of_small small (not_lt.mp above)] at bit
    contradiction
  have moved := pad2bit_bitwise.getLsbD_moved 21 id (3 * ·) only pad2bit_twoPow (j := j)
  rw [Bool.eq_iff_iff, moved, Bool.and_eq_true, decide_eq_true_eq]
  constructor
  · rintro ⟨i, -, bit, -, rfl⟩
    exact ⟨by omega, by rwa [Nat.mul_div_cancel_left i (by decide)]⟩
  · rintro ⟨multiple, bit⟩
    obtain ⟨i, below, rfl⟩ := only _ bit
    exact ⟨_, below, bit, by omega, by omega⟩

theorem getLsbD_unpad2bit : (unpad2bit (code &&& 0x1249249249249249)).getLsbD i =
    (decide (i < 21) && code.getLsbD (3 * i)) := by
  have only : ∀ j, (code &&& 0x1249249249249249).getLsbD j = true → ∃ i < 21, j = 3 * i := by
    intro j bit
    rw [BitVec.getLsbD_and, getLsbD_mask, Bool.and_eq_true, decide_eq_true_eq] at bit
    exact ⟨j / 3, by omega, by omega⟩
  have moved := unpad2bit_bitwise.getLsbD_moved 21 (3 * ·) id only unpad2bit_twoPow (j := i)
  rw [Bool.eq_iff_iff, moved, Bool.and_eq_true, decide_eq_true_eq]
  constructor
  · rintro ⟨k, below, bit, -, rfl⟩
    rw [BitVec.getLsbD_and, Bool.and_eq_true] at bit
    exact ⟨below, bit.1⟩
  · rintro ⟨below, bit⟩
    refine ⟨i, below, ?_, by simp only [id]; omega, rfl⟩
    rw [BitVec.getLsbD_and, getLsbD_mask, bit]
    simp
    omega

theorem getLsbD_morton3d (hx : x.toNat < 2 ^ 21) (hy : y.toNat < 2 ^ 21) (hz : z.toNat < 2 ^ 21) :
    (morton3d x y z).getLsbD j =
      if j % 3 = 2 then x.getLsbD (j / 3) else if j % 3 = 1 then y.getLsbD (j / 3) else z.getLsbD (j / 3) := by
  unfold morton3d
  by_cases wide : j < 64
  · simp only [BitVec.getLsbD_or, BitVec.getLsbD_shiftLeft, getLsbD_pad2bit hx, getLsbD_pad2bit hy,
      getLsbD_pad2bit hz, wide, decide_true, Bool.true_and]
    rcases (by omega : j % 3 = 0 ∨ j % 3 = 1 ∨ j % 3 = 2) with rest | rest | rest
    · have one : j < 1 ∨ (j - 1) % 3 ≠ 0 := by omega
      have two : j < 2 ∨ (j - 2) % 3 ≠ 0 := by omega
      grind
    · have one : (j - 1) % 3 = 0 ∧ (j - 1) / 3 = j / 3 := by omega
      have two : j < 2 ∨ (j - 2) % 3 ≠ 0 := by omega
      grind
    · have one : (j - 1) % 3 ≠ 0 := by omega
      have two : (j - 2) % 3 = 0 ∧ (j - 2) / 3 = j / 3 := by omega
      grind
  · have above : 21 ≤ j / 3 := by omega
    rw [BitVec.getLsbD_of_ge _ _ (not_lt.mp wide), getLsbD_of_small hx above, getLsbD_of_small hy above,
      getLsbD_of_small hz above]
    simp

/-- Component `k` of a decoded code holds every third bit, from bit `2 - k` on. -/
theorem getLsbD_demorton3d {k : ℕ} (component : k < 3) :
    (demorton3d code)[k].getLsbD i = (decide (i < 21) && code.getLsbD (2 - k + 3 * i)) := by
  match k with
  | 0 | 1 =>
    change (unpad2bit (code >>> _ &&& _)).getLsbD i = _
    rw [getLsbD_unpad2bit, BitVec.getLsbD_ushiftRight]
  | 2 =>
    change (unpad2bit (code &&& _)).getLsbD i = _
    rw [getLsbD_unpad2bit, Nat.sub_self, Nat.zero_add]

theorem demorton3d_small {k : ℕ} (component : k < 3) : (demorton3d code)[k].toNat < 2 ^ 21 := by
  apply Nat.lt_pow_two_of_testBit _
  intro i above
  rw [BitVec.testBit_toNat, getLsbD_demorton3d component]
  simp [not_lt.mpr above]

theorem demorton3d_morton3d (hx : x.toNat < 2 ^ 21) (hy : y.toNat < 2 ^ 21) (hz : z.toNat < 2 ^ 21) :
    demorton3d (morton3d x y z) = #v[x, y, z] := by
  refine Vector.ext fun k component => BitVec.eq_of_getLsbD_eq fun i _ => ?_
  rw [getLsbD_demorton3d component, getLsbD_morton3d hx hy hz]
  by_cases below : i < 21
  · have place : (2 - k + 3 * i) / 3 = i := by omega
    match k with
    | 0 | 1 | 2 => simp [below, place]
  · have above := not_lt.mp below
    match k with
    | 0 => simp [below, getLsbD_of_small hx above]
    | 1 => simp [below, getLsbD_of_small hy above]
    | 2 => simp [below, getLsbD_of_small hz above]

theorem morton3d_demorton3d :
    (morton3d (demorton3d code)[0] (demorton3d code)[1] (demorton3d code)[2]).toNat = code.toNat % 2 ^ 63 := by
  apply Nat.eq_of_testBit_eq
  intro j
  rw [BitVec.testBit_toNat, Nat.testBit_mod_two_pow, BitVec.testBit_toNat,
    getLsbD_morton3d (demorton3d_small _) (demorton3d_small _) (demorton3d_small _)]
  simp only [getLsbD_demorton3d]
  have short : j / 3 < 21 ↔ j < 63 := by omega
  rcases (by omega : j % 3 = 0 ∨ j % 3 = 1 ∨ j % 3 = 2) with rest | rest | rest
  · have place : 3 * (j / 3) = j := by omega
    simp [rest, short, place]
  · have place : 1 + 3 * (j / 3) = j := by omega
    simp [rest, short, place]
  · have place : 2 + 3 * (j / 3) = j := by omega
    simp [rest, short, place]

/-- A code interleaves the bits of its coordinates, and decoding gives these back; the coordinates
of any word are in range and encode its 63 low bits. -/
theorem morton3d_interleaves :
    (∀ x y z : BitVec 64, x.toNat < 2 ^ 21 → y.toNat < 2 ^ 21 → z.toNat < 2 ^ 21 →
      (∀ i < 21, (morton3d x y z).getLsbD (3 * i + 2) = x.getLsbD i ∧
        (morton3d x y z).getLsbD (3 * i + 1) = y.getLsbD i ∧ (morton3d x y z).getLsbD (3 * i) = z.getLsbD i) ∧
      (morton3d x y z).getLsbD 63 = false ∧ demorton3d (morton3d x y z) = #v[x, y, z]) ∧
    ∀ code : BitVec 64, (∀ c ∈ demorton3d code, c.toNat < 2 ^ 21) ∧
      (morton3d (demorton3d code)[0] (demorton3d code)[1] (demorton3d code)[2]).toNat = code.toNat % 2 ^ 63 := by
  refine ⟨fun x y z hx hy hz => ⟨fun i below => ?_, ?_, demorton3d_morton3d hx hy hz⟩,
    fun code => ⟨fun c member => ?_, morton3d_demorton3d⟩⟩
  · have place : (3 * i + 2) / 3 = i ∧ (3 * i + 1) / 3 = i := by omega
    simp [getLsbD_morton3d hx hy hz, place]
  · rw [getLsbD_morton3d hx hy hz]
    exact getLsbD_of_small hz le_rfl
  · obtain ⟨k, component, rfl⟩ := Vector.mem_iff_getElem.mp member
    exact demorton3d_small component

/-- The highest bit of a code is not one of a coordinate. -/
theorem morton3d_interleaves_corner :
    demorton3d (morton3d 0x1fffff 5 0) = #v[0x1fffff, 5, 0] ∧
    (morton3d 0x1fffff 5 0).getLsbD 62 = true ∧
    (morton3d (demorton3d 0x8000000000000006)[0] (demorton3d 0x8000000000000006)[1]
      (demorton3d 0x8000000000000006)[2]).toNat = 6 := by
  obtain ⟨encoded, decoded⟩ := morton3d_interleaves
  obtain ⟨bits, -, inverse⟩ := encoded 0x1fffff 5 0 (by decide) (by decide) (by decide)
  exact ⟨inverse, (bits 20 (by decide)).1.trans (by decide), (decoded 0x8000000000000006).2.trans (by decide)⟩

end Celestite.Morton
