import Mathlib.Algebra.Order.Ring.Int
import Mathlib.Data.Int.Order.Basic
import Mathlib.Tactic.Ring

/-!
# Integer types

Integer types of any width, in two's complement, with the conversions before a comparison: promotion
to `int`, then the usual arithmetic conversions. Rank is ordered by width.
-/

namespace Celestite.Sequential

structure Integral where
  width : ℕ
  signed : Bool
  two_le : 2 ≤ width
  deriving DecidableEq

namespace Integral

def lowest (t : Integral) : ℤ := if t.signed then -2 ^ (t.width - 1) else 0

def max (t : Integral) : ℤ := if t.signed then 2 ^ (t.width - 1) - 1 else 2 ^ t.width - 1

def Has (t : Integral) (v : ℤ) : Prop := t.lowest ≤ v ∧ v ≤ t.max

/-- The value of the type that is congruent modulo `2 ^ width`. -/
def convert (t : Integral) (v : ℤ) : ℤ := t.lowest + (v - t.lowest) % 2 ^ t.width

/-- `std::make_signed_t` -/
def makeSigned (t : Integral) : Integral := { t with signed := true }

/-- A type narrower than `int`, which has `int` bits, becomes `int`. -/
def promote (int : ℕ) (t : Integral) : Integral :=
  if narrow : t.width < int then ⟨int, true, t.two_le.trans narrow.le⟩ else t

/-- The type of higher rank, and of two types of different signedness the unsigned one unless the
signed one is wider. -/
def wider (t u : Integral) : Integral :=
  if t.signed = u.signed then (if t.width < u.width then u else t)
  else if t.signed then (if t.width ≤ u.width then u else t)
  else if u.width ≤ t.width then t else u

def common (int : ℕ) (t u : Integral) : Integral := wider (promote int t) (promote int u)

/-- `a > b` for operands of the types `t` and `u`. -/
def greater (int : ℕ) (t u : Integral) (a b : ℤ) : Bool :=
  decide ((common int t u).convert a > (common int t u).convert b)

def less (int : ℕ) (t u : Integral) (a b : ℤ) : Bool :=
  decide ((common int t u).convert a < (common int t u).convert b)

variable {t u : Integral} {int : ℕ} {a b v : ℤ}

theorem lowest_of_signed (signed : t.signed = true) : t.lowest = -2 ^ (t.width - 1) := if_pos signed

theorem lowest_of_unsigned (unsigned : t.signed = false) : t.lowest = 0 := if_neg (by simp [unsigned])

theorem max_of_signed (signed : t.signed = true) : t.max = 2 ^ (t.width - 1) - 1 := if_pos signed

theorem max_of_unsigned (unsigned : t.signed = false) : t.max = 2 ^ t.width - 1 :=
  if_neg (by simp [unsigned])

theorem two_pow_width (t : Integral) : (2 : ℤ) ^ t.width = 2 * 2 ^ (t.width - 1) := by
  have two_le := t.two_le
  rw [← pow_succ', Nat.sub_add_cancel (by omega)]

theorem two_pow_pos (n : ℕ) : (0 : ℤ) < 2 ^ n := pow_pos (by decide) n

theorem max_eq (t : Integral) : t.max = t.lowest + 2 ^ t.width - 1 := by
  have double := t.two_pow_width
  cases kind : t.signed with
  | true =>
    rw [max_of_signed kind, lowest_of_signed kind]
    omega
  | false => rw [max_of_unsigned kind, lowest_of_unsigned kind, zero_add]

theorem lowest_nonpos (t : Integral) : t.lowest ≤ 0 := by
  have pos := two_pow_pos (t.width - 1)
  unfold lowest
  split <;> omega

theorem max_pos (t : Integral) : 0 < t.max := by
  have double := t.two_pow_width
  have pos := two_pow_pos (t.width - 1 - 1)
  have half : (2 : ℤ) ^ (t.width - 1) = 2 * 2 ^ (t.width - 1 - 1) := by
    have two_le := t.two_le
    rw [← pow_succ', Nat.sub_add_cancel (by omega)]
  unfold max
  split <;> omega

theorem convert_of_has (has : t.Has v) : t.convert v = v := by
  obtain ⟨low, high⟩ := has
  rw [max_eq] at high
  rw [convert, Int.emod_eq_of_lt (by omega) (by omega)]
  omega

/-! ### Wider types -/

def Embeds (t u : Integral) : Prop := u.lowest ≤ t.lowest ∧ t.max ≤ u.max

theorem Embeds.has (embeds : t.Embeds u) (has : t.Has v) : u.Has v :=
  ⟨embeds.1.trans has.1, has.2.trans embeds.2⟩

theorem Embeds.refl (t : Integral) : t.Embeds t := ⟨le_rfl, le_rfl⟩

theorem two_pow_le {m n : ℕ} (le : m ≤ n) : (2 : ℤ) ^ m ≤ 2 ^ n := pow_le_pow_right₀ (by decide) le

theorem embeds_of_same (same : t.signed = u.signed) (le : t.width ≤ u.width) : t.Embeds u := by
  have whole := two_pow_le le
  have half : (2 : ℤ) ^ (t.width - 1) ≤ 2 ^ (u.width - 1) := two_pow_le (Nat.sub_le_sub_right le 1)
  unfold Embeds lowest max
  rw [same]
  split <;> omega

theorem embeds_of_unsigned (unsigned : t.signed = false) (signed : u.signed = true)
    (lt : t.width < u.width) : t.Embeds u := by
  have half : (2 : ℤ) ^ t.width ≤ 2 ^ (u.width - 1) := two_pow_le (Nat.le_sub_one_of_lt lt)
  have pos := two_pow_pos (u.width - 1)
  rw [Embeds, lowest_of_unsigned unsigned, lowest_of_signed signed, max_of_unsigned unsigned,
    max_of_signed signed]
  omega

theorem max_le_of_signed (signed : t.signed = true) (unsigned : u.signed = false)
    (le : t.width ≤ u.width) : t.max ≤ u.max := by
  have whole := two_pow_le le
  have double := t.two_pow_width
  have pos := two_pow_pos (t.width - 1)
  rw [max_of_signed signed, max_of_unsigned unsigned]
  omega

theorem embeds_promote (int : ℕ) (t : Integral) : t.Embeds (promote int t) := by
  unfold promote
  split
  · rename_i narrow
    cases kind : t.signed with
    | true => exact embeds_of_same kind narrow.le
    | false => exact embeds_of_unsigned kind rfl narrow
  · exact .refl t

/-- What is still unsigned has not been promoted. -/
theorem promote_of_unsigned (unsigned : (promote int t).signed = false) : promote int t = t := by
  unfold promote at unsigned ⊢
  split at unsigned
  · contradiction
  · rename_i wide
    rw [dif_neg wide]

/-! ### Comparisons -/

/-- The wider type has all values of both, or is unsigned and reaches as far up as the other one. -/
theorem wider_cases (t u : Integral) : t.Embeds (wider t u) ∧ u.Embeds (wider t u) ∨
    t.signed = true ∧ u.signed = false ∧ t.width ≤ u.width ∧ wider t u = u ∨
    t.signed = false ∧ u.signed = true ∧ u.width ≤ t.width ∧ wider t u = t := by
  unfold wider
  split_ifs with same shorter signed le le
  · exact .inl ⟨embeds_of_same same shorter.le, .refl u⟩
  · exact .inl ⟨.refl t, embeds_of_same same.symm (by omega)⟩
  · exact .inr (.inl ⟨signed, by simpa [signed] using same, le, rfl⟩)
  · have unsigned : u.signed = false := by simpa [signed] using same
    exact .inl ⟨.refl t, embeds_of_unsigned unsigned signed (by omega)⟩
  · have unsigned : t.signed = false := by simpa using signed
    exact .inr (.inr ⟨unsigned, by simpa [unsigned] using same, le, rfl⟩)
  · have unsigned : t.signed = false := by simpa using signed
    exact .inl ⟨embeds_of_unsigned unsigned (by simpa [unsigned] using same) (by omega), .refl u⟩

theorem common_cases (int : ℕ) (t u : Integral) :
    t.Embeds (common int t u) ∧ u.Embeds (common int t u) ∨
    u.signed = false ∧ t.max ≤ u.max ∧ common int t u = u ∨
    t.signed = false ∧ u.max ≤ t.max ∧ common int t u = t := by
  obtain ⟨low, high⟩ := embeds_promote int t
  obtain ⟨low', high'⟩ := embeds_promote int u
  unfold common
  rcases wider_cases (promote int t) (promote int u) with
    ⟨⟨below, above⟩, ⟨below', above'⟩⟩ | ⟨signed, unsigned, le, eq⟩ | ⟨unsigned, signed, le, eq⟩
  · exact .inl ⟨⟨below.trans low, high.trans above⟩, ⟨below'.trans low', high'.trans above'⟩⟩
  · have same : promote int u = u := promote_of_unsigned unsigned
    have reaches := high.trans (max_le_of_signed signed unsigned le)
    rw [same] at unsigned reaches eq
    exact .inr (.inl ⟨unsigned, reaches, by rw [same, eq]⟩)
  · have same : promote int t = t := promote_of_unsigned unsigned
    have reaches := high'.trans (max_le_of_signed signed unsigned le)
    rw [same] at unsigned reaches eq
    exact .inr (.inr ⟨unsigned, reaches, by rw [same, eq]⟩)

theorem common_has_left (has : t.Has a) (nonneg : 0 ≤ a) : (common int t u).Has a := by
  rcases common_cases int t u with ⟨embeds, -⟩ | ⟨unsigned, reaches, eq⟩ | ⟨-, -, eq⟩
  · exact embeds.has has
  · rw [eq, Has, lowest_of_unsigned unsigned]
    exact ⟨nonneg, has.2.trans reaches⟩
  · rwa [eq]

theorem common_has_right (has : u.Has a) (nonneg : 0 ≤ a) : (common int t u).Has a := by
  rcases common_cases int t u with ⟨-, embeds⟩ | ⟨-, -, eq⟩ | ⟨unsigned, reaches, eq⟩
  · exact embeds.has has
  · rwa [eq]
  · rw [eq, Has, lowest_of_unsigned unsigned]
    exact ⟨nonneg, has.2.trans reaches⟩

theorem embeds_common (signed : t.signed = true) (signed' : u.signed = true) :
    t.Embeds (common int t u) ∧ u.Embeds (common int t u) := by
  rcases common_cases int t u with embeds | ⟨unsigned, -⟩ | ⟨unsigned, -⟩
  · exact embeds
  · rw [signed'] at unsigned
    contradiction
  · rw [signed] at unsigned
    contradiction

theorem common_has_of_max_lt (has : t.Has a) (reaches : u.max < t.max) : (common int t u).Has a := by
  rcases common_cases int t u with ⟨embeds, -⟩ | ⟨-, short, -⟩ | ⟨-, -, eq⟩
  · exact embeds.has has
  · omega
  · rwa [eq]

theorem greater_iff (ha : (common int t u).Has a) (hb : (common int t u).Has b) :
    greater int t u a b = true ↔ b < a := by
  rw [greater, decide_eq_true_iff, convert_of_has ha, convert_of_has hb]

theorem less_iff (ha : (common int t u).Has a) (hb : (common int t u).Has b) :
    less int t u a b = true ↔ a < b := by
  rw [less, decide_eq_true_iff, convert_of_has ha, convert_of_has hb]

theorem has_max (t : Integral) : t.Has t.max := ⟨t.lowest_nonpos.trans t.max_pos.le, le_rfl⟩

theorem has_lowest (t : Integral) : t.Has t.lowest := ⟨le_rfl, t.lowest_nonpos.trans t.max_pos.le⟩

theorem makeSigned_has_lowest (t : Integral) : t.makeSigned.Has t.lowest := by
  cases kind : t.signed with
  | true =>
    have same : t.makeSigned = t := by
      unfold makeSigned
      rw [← kind]
    rw [same]
    exact t.has_lowest
  | false =>
    rw [lowest_of_unsigned kind]
    exact ⟨t.makeSigned.lowest_nonpos, t.makeSigned.max_pos.le⟩

end Integral
end Celestite.Sequential
