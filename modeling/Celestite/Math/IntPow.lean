import Mathlib.Algebra.Group.Basic
import Mathlib.Algebra.Order.Ring.Abs
import Celestite.Sequential.Integral

/-!
# Powers

`clst::math::int_pow`, with any multiplication for `*`. One that may be undefined is a partial one.
-/

namespace Celestite.Math
open Celestite.Sequential

variable {α : Type*}

def intPow (mul : α → α → Option α) (one x : α) (p : ℕ) : Option α :=
  if p = 0 then some one
  else if p = 1 then some x
  else do
    let s ← intPow mul one x (p / 2)
    if p % 2 = 0 then mul s s
    else do
      let xs ← mul x s
      mul xs s
termination_by p
decreasing_by omega

section
variable {mul : α → α → Option α} {one x v : α} {pow : ℕ → α} {p : ℕ}

/-- Where the powers up to the last one can be multiplied the last one is the result. -/
theorem intPow_of_powers (zero : pow 0 = one) (first : pow 1 = x)
    (multiplies : ∀ m n, m + n ≤ p → mul (pow m) (pow n) = some (pow (m + n))) :
    intPow mul one x p = some (pow p) := by
  induction p using Nat.strong_induction_on with
  | _ p ih =>
    rw [intPow]
    split_ifs with none single even
    · rw [none, zero]
    · rw [single, first]
    · have half := ih (p / 2) (by omega) fun m n le => multiplies m n (by omega)
      have whole : p / 2 + p / 2 = p := by omega
      rw [half, Option.bind_eq_bind, Option.bind_some, multiplies _ _ whole.le, whole]
    · have half := ih (p / 2) (by omega) fun m n le => multiplies m n (by omega)
      have whole : 1 + p / 2 + p / 2 = p := by omega
      have next := multiplies 1 (p / 2) (by omega)
      rw [first] at next
      rw [half, Option.bind_eq_bind, Option.bind_some, next, Option.bind_some, multiplies _ _ whole.le, whole]

/-- What holds of the factors holds of the result, if multiplying adds the exponents. -/
theorem intPow_sound {R : ℕ → α → Prop} (zero : R 0 one) (first : R 1 x)
    (multiplies : ∀ m n a b c, R m a → R n b → mul a b = some c → R (m + n) c)
    (result : intPow mul one x p = some v) : R p v := by
  induction p using Nat.strong_induction_on generalizing v with
  | _ p ih =>
    rw [intPow] at result
    split_ifs at result with none single even
    · obtain rfl := Option.some.inj result
      rwa [none]
    · obtain rfl := Option.some.inj result
      rwa [single]
    · obtain ⟨s, half, square⟩ := Option.bind_eq_some_iff.mp result
      have hs := ih (p / 2) (by omega) half
      have whole : p / 2 + p / 2 = p := by omega
      exact whole ▸ multiplies _ _ s s v hs hs square
    · obtain ⟨s, half, rest⟩ := Option.bind_eq_some_iff.mp result
      obtain ⟨xs, next, last⟩ := Option.bind_eq_some_iff.mp rest
      have hs := ih (p / 2) (by omega) half
      have whole : 1 + p / 2 + p / 2 = p := by omega
      exact whole ▸ multiplies _ _ xs s v (multiplies _ _ x s xs first hs next) hs last

end

/-- `a * b` in a signed type, undefined where the type does not have the product. -/
def mulSigned (t : Integral) (a b : ℤ) : Option ℤ := if t.lowest ≤ a * b ∧ a * b ≤ t.max then some (a * b) else none

section
variable {t : Integral} {x v : ℤ} {p q : ℕ}

theorem mulSigned_iff {a b : ℤ} : mulSigned t a b = some v ↔ v = a * b ∧ t.Has v := by
  unfold mulSigned Integral.Has
  split_ifs with inside
  · rw [Option.some.injEq]
    constructor
    · rintro rfl
      exact ⟨rfl, inside⟩
    · rintro ⟨rfl, -⟩
      rfl
  · constructor
    · nofun
    · rintro ⟨rfl, has⟩
      exact absurd has inside

theorem max_eq_of_signed (signed : t.signed = true) : t.max = -t.lowest - 1 := by
  rw [Integral.max_of_signed signed, Integral.lowest_of_signed signed, neg_neg]

theorem has_iff_of_signed (signed : t.signed = true) : t.Has v ↔ t.lowest ≤ v ∧ v < -t.lowest := by
  rw [Integral.Has, max_eq_of_signed signed, Int.le_sub_one_iff]

/-- A lower power of a number that is not 0, 1 or -1 is at most half as large as a higher one. -/
theorem two_mul_abs_pow_le (large : 2 ≤ |x|) (lt : q < p) : 2 * |x ^ q| ≤ |x ^ p| := by
  rw [abs_pow, abs_pow]
  calc
    2 * |x| ^ q ≤ |x| * |x| ^ q := mul_le_mul_of_nonneg_right large (pow_nonneg (abs_nonneg x) q)
    _ = |x| ^ (q + 1) := (pow_succ' _ _).symm
    _ ≤ |x| ^ p := pow_le_pow_right₀ (by omega) lt

theorem abs_pow_le_one (small : |x| ≤ 1) (q : ℕ) : |x ^ q| ≤ 1 := by
  rw [abs_pow]
  exact pow_le_one₀ (abs_nonneg x) small

/-- No lower power is out of range, also where the highest one is the lowest value. -/
theorem has_pow (signed : t.signed = true) (has : t.Has (x ^ p)) (le : q ≤ p) : t.Has (x ^ q) := by
  rcases Nat.lt_or_eq_of_le le with lt | rfl
  · rw [has_iff_of_signed signed] at has ⊢
    have two := t.max_pos
    rw [max_eq_of_signed signed] at two
    have above := le_abs_self (x ^ q)
    have below := neg_abs_le (x ^ q)
    rcases le_or_gt |x| 1 with small | large
    · have one := abs_pow_le_one small q
      omega
    · have half := two_mul_abs_pow_le large lt
      have most : |x ^ p| ≤ -t.lowest := abs_le.mpr ⟨by omega, has.2.le⟩
      omega
  · exact has

theorem has_one (t : Integral) : t.Has 1 := ⟨t.lowest_nonpos.trans one_pos.le, t.max_pos⟩

end

/-- `int_pow` is the power in any monoid. In a signed type it is defined, every product in range, exactly
if the power is in range. -/
theorem int_pow_exact :
    (∀ {M : Type*} [Monoid M] (x : M) (p : ℕ), intPow (fun a b => some (a * b)) 1 x p = some (x ^ p)) ∧
    ∀ (t : Integral) (x : ℤ) (p : ℕ), t.signed = true → t.Has x →
      ∀ v, intPow (mulSigned t) 1 x p = some v ↔ v = x ^ p ∧ t.Has (x ^ p) := by
  constructor
  · intro M _ x p
    apply intPow_of_powers (pow_zero x) (pow_one x)
    intro m n _
    rw [pow_add]
  · intro t x p signed has v
    constructor
    · intro result
      have exactly : v = x ^ p ∧ t.Has v := by
        apply intPow_sound (R := fun n a => a = x ^ n ∧ t.Has a) ⟨(pow_zero x).symm, has_one t⟩
          ⟨(pow_one x).symm, has⟩ _ result
        rintro m n a b c ⟨rfl, -⟩ ⟨rfl, -⟩ product
        rw [mulSigned_iff, ← pow_add] at product
        exact product
      exact ⟨exactly.1, exactly.1 ▸ exactly.2⟩
    · rintro ⟨rfl, fits⟩
      apply intPow_of_powers (pow_zero x) (pow_one x)
      intro m n le
      exact mulSigned_iff.mpr ⟨pow_add x m n, has_pow signed fits le⟩

/-- The lowest value of 32 bits is a power, and the next power of -2 is not defined. -/
theorem int_pow_exact_lowest : intPow (mulSigned ⟨32, true, by decide⟩) 1 (-2) 31 = some (-2147483648) ∧
    intPow (mulSigned ⟨32, true, by decide⟩) 1 (-2) 32 = none := by
  obtain ⟨-, signed⟩ := int_pow_exact.{0}
  have has : Integral.Has ⟨32, true, by decide⟩ (-2) := ⟨by decide, by decide⟩
  constructor
  · exact (signed _ _ _ rfl has _).mpr ⟨by decide, by decide, by decide⟩
  · rw [Option.eq_none_iff_forall_ne_some]
    intro v result
    have fits := ((signed _ _ _ rfl has v).mp result).2
    exact absurd fits.2 (by decide)

end Celestite.Math
