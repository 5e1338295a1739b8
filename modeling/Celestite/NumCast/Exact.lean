import Celestite.NumCast.Model

/-!
# Numeric casts are exact

The checks that the types select compare values that no conversion changes, so they decide whether
the value is one of the other type.
-/

namespace Celestite.NumCast
open Celestite.Sequential

variable {int : ℕ} {From To : Integral} {src : ℤ}

theorem check_upper_iff : checkUpper int From To = true ↔ To.max < From.max :=
  Integral.greater_iff (Integral.common_has_left From.has_max From.max_pos.le)
    (Integral.common_has_right To.has_max To.max_pos.le)

theorem check_lower_iff : checkLower int From To = true ↔ From.lowest < To.lowest := by
  have has := From.makeSigned_has_lowest
  have has' := To.makeSigned_has_lowest
  obtain ⟨embeds, embeds'⟩ := @Integral.embeds_common From.makeSigned To.makeSigned int rfl rfl
  unfold checkLower
  rw [Integral.convert_of_has has, Integral.convert_of_has has']
  exact Integral.less_iff (embeds.has has) (embeds'.has has')

/-- Where there is a check against the upper bound of the other type, it is one of integers. -/
theorem upper_iff (has : From.Has src) (check : checkUpper int From To = true) :
    Integral.greater int From To src To.max = true ↔ To.max < src :=
  Integral.greater_iff (Integral.common_has_of_max_lt has (check_upper_iff.mp check))
    (Integral.common_has_right To.has_max To.max_pos.le)

/-- So is one against the lower bound, since there is one only from a signed type. -/
theorem lower_iff (has : From.Has src) (check : checkLower int From To = true) :
    Integral.less int From To.makeSigned src (To.makeSigned.convert To.lowest) = true ↔ src < To.lowest := by
  have has' := To.makeSigned_has_lowest
  have signed : From.signed = true := by
    by_contra unsigned
    have below := check_lower_iff.mp check
    rw [Integral.lowest_of_unsigned (by simpa using unsigned)] at below
    exact absurd To.lowest_nonpos (by omega)
  obtain ⟨embeds, embeds'⟩ := @Integral.embeds_common From To.makeSigned int signed rfl
  rw [Integral.convert_of_has has']
  exact Integral.less_iff (embeds.has has) (embeds'.has has')

theorem refuses_upper_iff (has : From.Has src) :
    (checkUpper int From To && Integral.greater int From To src To.max) = true ↔ To.max < src := by
  rw [Bool.and_eq_true]
  constructor
  · rintro ⟨check, above⟩
    exact (upper_iff has check).mp above
  · intro above
    have check : checkUpper int From To = true := check_upper_iff.mpr (above.trans_le has.2)
    exact ⟨check, (upper_iff has check).mpr above⟩

theorem refuses_lower_iff (has : From.Has src) :
    (checkLower int From To && Integral.less int From To.makeSigned src
      (To.makeSigned.convert To.lowest)) = true ↔ src < To.lowest := by
  rw [Bool.and_eq_true]
  constructor
  · rintro ⟨check, below⟩
    exact (lower_iff has check).mp below
  · intro below
    have check : checkLower int From To = true := check_lower_iff.mpr (has.1.trans_lt below)
    exact ⟨check, (lower_iff has check).mpr below⟩

theorem lossless_iff : isLosslessNumCast int From To = true ↔ From.Embeds To := by
  unfold isLosslessNumCast Integral.Embeds
  rw [Bool.not_eq_true', Bool.or_eq_false_iff, ← Bool.not_eq_true, ← Bool.not_eq_true, check_upper_iff,
    check_lower_iff, not_lt, not_lt, and_comm]

theorem embeds_iff : From.Embeds To ↔ ∀ v, From.Has v → To.Has v := by
  constructor
  · intro embeds v has
    exact embeds.has has
  · intro all
    exact ⟨(all _ From.has_lowest).1, (all _ From.has_max).2⟩

theorem num_cast_cases (has : From.Has src) :
    (isLosslessNumCast int From To = true ∧ To.Has src ∧ numCast int From To src = .plain src) ∨
    (isLosslessNumCast int From To = false ∧ To.Has src ∧
      numCast int From To src = .optional (some src)) ∨
    (isLosslessNumCast int From To = false ∧ ¬To.Has src ∧ numCast int From To src = .optional none) := by
  cases kind : isLosslessNumCast int From To with
  | true =>
    have fits : To.Has src := (lossless_iff.mp kind).has has
    unfold isLosslessNumCast at kind
    refine .inl ⟨rfl, fits, ?_⟩
    rw [numCast, if_neg (by simpa using kind), Integral.convert_of_has fits]
  | false =>
    have checked : (checkUpper int From To || checkLower int From To) = true := by
      unfold isLosslessNumCast at kind
      rwa [Bool.not_eq_false'] at kind
    have result : numCast int From To src = if To.max < src then .optional none
        else if src < To.lowest then .optional none else .optional (some (To.convert src)) := by
      simp only [numCast, if_pos checked, refuses_upper_iff has, refuses_lower_iff has]
    by_cases fits : To.Has src
    · refine .inr (.inl ⟨rfl, fits, ?_⟩)
      rw [result, if_neg (not_lt.mpr fits.2), if_neg (not_lt.mpr fits.1), Integral.convert_of_has fits]
    · refine .inr (.inr ⟨rfl, fits, ?_⟩)
      by_cases above : To.max < src
      · rw [result, if_pos above]
      · have below : src < To.lowest := by
          by_contra inside
          exact fits ⟨not_lt.mp inside, not_lt.mp above⟩
        rw [result, if_neg above, if_pos below]

theorem value_iff (has : From.Has src) (v : ℤ) :
    (numCast int From To src).value? = some v ↔ To.Has src ∧ v = src := by
  rcases @num_cast_cases int From To src has with ⟨-, fits, result⟩ | ⟨-, fits, result⟩ | ⟨-, unfit, result⟩
  · rw [result, Result.value?, Option.some.injEq, and_iff_right fits, eq_comm]
  · rw [result, Result.value?, Option.some.injEq, and_iff_right fits, eq_comm]
  · rw [result, Result.value?]
    exact ⟨nofun, fun fit => absurd fit.1 unfit⟩

theorem plain_iff (has : From.Has src) :
    (∃ v, numCast int From To src = .plain v) ↔ isLosslessNumCast int From To = true := by
  rcases @num_cast_cases int From To src has with ⟨kind, -, result⟩ | ⟨kind, -, result⟩ | ⟨kind, -, result⟩
  · exact iff_of_true ⟨src, result⟩ kind
  · simp [kind, result]
  · simp [kind, result]

theorem num_cast_ex_eq : numCastEx int From To src =
    match (numCast int From To src).value? with
    | some v => .ok v
    | none => .error .rangeError := by
  unfold numCastEx
  cases numCast int From To src with
  | plain v => rfl
  | optional v => cases v <;> rfl

/-- A cast returns the value exactly if the other type has it, and without an `optional` exactly if it
has every value of the first one; and it can be cast back. -/
theorem num_cast_exact (int : ℕ) (From To : Integral) (src : ℤ) (has : From.Has src) :
    (∀ v, (numCast int From To src).value? = some v ↔ To.Has src ∧ v = src) ∧
    ((∃ v, numCast int From To src = .plain v) ↔ ∀ v, From.Has v → To.Has v) ∧
    (isLosslessNumCast int From To = true ↔ ∀ v, From.Has v → To.Has v) ∧
    (To.Has src → numCastEx int From To src = .ok src) ∧
    (¬To.Has src → numCastEx int From To src = .error .rangeError) ∧
    ∀ v, (numCast int From To src).value? = some v → (numCast int To From v).value? = some src := by
  have lossless : isLosslessNumCast int From To = true ↔ ∀ v, From.Has v → To.Has v :=
    lossless_iff.trans embeds_iff
  refine ⟨value_iff has, (plain_iff has).trans lossless, lossless, ?_, ?_, ?_⟩
  · intro fits
    rw [num_cast_ex_eq, (value_iff has src).mpr ⟨fits, rfl⟩]
  · intro unfit
    have nothing : (numCast int From To src).value? = none := by
      rw [Option.eq_none_iff_forall_ne_some]
      intro v found
      exact unfit ((value_iff has v).mp found).1
    rw [num_cast_ex_eq, nothing]
  · intro v found
    obtain ⟨fits, rfl⟩ := (value_iff has v).mp found
    exact (value_iff fits v).mpr ⟨has, rfl⟩

/-- -1 is no value of a type of 32 bits without a sign, where `int` has 32 bits. -/
theorem num_cast_exact_minus_one :
    numCastEx 32 ⟨32, true, by decide⟩ ⟨32, false, by decide⟩ (-1) = .error .rangeError := by
  obtain ⟨-, -, -, -, throws, -⟩ := num_cast_exact 32 ⟨32, true, by decide⟩ ⟨32, false, by decide⟩ (-1)
    ⟨by decide, by decide⟩
  refine throws fun has => absurd has.1 (by decide)

-- `CHAR_MAX + 1`
example : numCastEx 32 ⟨32, true, by decide⟩ ⟨8, true, by decide⟩ 128 = .error .rangeError := by decide

end Celestite.NumCast
