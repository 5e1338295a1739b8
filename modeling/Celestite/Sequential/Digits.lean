import Mathlib.Data.Nat.Digits.Lemmas
import Mathlib.Tactic.Ring

/-!
# Digits in base 256

A number in a given number of bytes, the least significant one first. The number the bytes
stand for is `Nat.ofDigits`.
-/

namespace Celestite.Digits

def digits : ℕ → ℕ → List UInt8
  | 0, _ => []
  | w + 1, n => UInt8.ofNat n :: digits w (n / 256)

def number (bs : List UInt8) : ℕ := Nat.ofDigits 256 (bs.map UInt8.toNat)

@[simp] theorem number_nil : number [] = 0 := rfl

@[simp] theorem number_cons (b : UInt8) (bs : List UInt8) :
    number (b :: bs) = b.toNat + 256 * number bs := by
  simp [number, Nat.ofDigits_cons]

@[simp] theorem digits_length (w n : ℕ) : (digits w n).length = w := by
  induction w generalizing n with
  | zero => rfl
  | succ w ih => simp [digits, ih]

/-- Digits above the lowest `w` are lost. -/
theorem number_digits (w n : ℕ) : number (digits w n) = n % 256 ^ w := by
  induction w generalizing n with
  | zero => simp [digits, Nat.mod_one]
  | succ w ih =>
    have lowest : (UInt8.ofNat n).toNat = n % 256 := by simp
    rw [digits, number_cons, ih, lowest, pow_succ', Nat.mod_mul]

theorem number_lt (bs : List UInt8) : number bs < 256 ^ bs.length := by
  have bytes : ∀ d ∈ bs.map UInt8.toNat, d < 256 := by
    intro d member
    obtain ⟨b, _, rfl⟩ := List.mem_map.mp member
    exact b.toNat_lt
  simpa [number] using Nat.ofDigits_lt_base_pow_length (by decide) bytes

theorem digits_number (bs : List UInt8) : digits bs.length (number bs) = bs := by
  induction bs with
  | nil => rfl
  | cons b bs ih =>
    have := b.toNat_lt
    have quotient : (b.toNat + 256 * number bs) / 256 = number bs := by omega
    have lowest : UInt8.ofNat (b.toNat + 256 * number bs) = b := by
      apply UInt8.toNat_inj.mp
      simp
    rw [List.length_cons, number_cons, digits, quotient, lowest, ih]

theorem take_digits {k w : ℕ} (le : k ≤ w) (n : ℕ) : (digits w n).take k = digits k n := by
  induction k generalizing w n with
  | zero => rfl
  | succ k ih =>
    obtain ⟨w, rfl⟩ : ∃ v, w = v + 1 := ⟨w - 1, by omega⟩
    rw [digits, digits, List.take_succ_cons, ih (by omega)]

theorem number_append_zeros (bs : List UInt8) (k : ℕ) :
    number (bs ++ List.replicate k 0) = number bs := by
  simp [number, Nat.ofDigits_append_replicate_zero]

theorem digits_number_wide {bs : List UInt8} {w : ℕ} (le : bs.length ≤ w) :
    digits w (number bs) = bs ++ List.replicate (w - bs.length) 0 := by
  have all := digits_number (bs ++ List.replicate (w - bs.length) 0)
  rwa [List.length_append, List.length_replicate, Nat.add_sub_cancel' le, number_append_zeros] at all

end Celestite.Digits
