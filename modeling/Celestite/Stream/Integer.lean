import Celestite.Sequential.Digits

/-!
# Integers in the memory of a host

An object of an integer type is its bytes, in the order of the host.
-/

namespace Celestite

inductive Endian where
  | LE
  | BE
  deriving DecidableEq

/-- From the least significant byte first to the order, and back. -/
def Endian.arrange : Endian → List UInt8 → List UInt8
  | .LE, bs => bs
  | .BE, bs => bs.reverse

namespace Endian

@[simp] theorem arrange_arrange (e : Endian) (bs : List UInt8) :
    e.arrange (e.arrange bs) = bs := by
  cases e <;> simp [arrange]

@[simp] theorem length_arrange (e : Endian) (bs : List UInt8) :
    (e.arrange bs).length = bs.length := by
  cases e <;> simp [arrange]

theorem reverse_arrange {e host : Endian} (differ : e ≠ host) (bs : List UInt8) :
    (host.arrange bs).reverse = e.arrange bs := by
  cases e <;> cases host <;> simp_all [arrange]

theorem arrange_arrange_other {e host : Endian} (differ : e ≠ host) (bs : List UInt8) :
    host.arrange (e.arrange bs) = bs.reverse := by
  cases e <;> cases host <;> simp_all [arrange]

end Endian

/-- `sizeof` and `std::is_signed_v` -/
structure IntType where
  width : ℕ
  signed : Bool
  deriving DecidableEq

/-- The value with the digits of `n`, in two's complement where the type is signed. -/
def IntType.decode (t : IntType) (n : ℕ) : ℤ :=
  if t.signed ∧ 256 ^ t.width ≤ 2 * n then n - 256 ^ t.width else n

def IntType.Has (t : IntType) (v : ℤ) : Prop :=
  if t.signed then -256 ^ t.width ≤ 2 * v ∧ 2 * v < 256 ^ t.width else 0 ≤ v ∧ v < 256 ^ t.width

theorem IntType.decode_injective {t : IntType} {m n : ℕ} (hm : m < 256 ^ t.width)
    (hn : n < 256 ^ t.width) (same : t.decode m = t.decode n) : m = n := by
  have bound : ((256 ^ t.width : ℕ) : ℤ) = 256 ^ t.width := by push_cast; rfl
  unfold decode at same
  rw [← bound] at same
  split_ifs at same <;> omega

structure Object (t : IntType) where
  bytes : List UInt8
  length_bytes : bytes.length = t.width
  deriving DecidableEq

namespace Object
variable {t : IntType} {host : Endian} {o : Object t}

@[ext] theorem ext {o' : Object t} (same : o.bytes = o'.bytes) : o = o' := by
  cases o
  cases o'
  congr

def number (host : Endian) (o : Object t) : ℕ := Digits.number (host.arrange o.bytes)

def value (host : Endian) (o : Object t) : ℤ := t.decode (o.number host)

def ofNumber (host : Endian) (t : IntType) (n : ℕ) : Object t where
  bytes := host.arrange (Digits.digits t.width n)
  length_bytes := by rw [Endian.length_arrange, Digits.digits_length]

theorem bytes_ofNumber (n : ℕ) :
    (ofNumber host t n).bytes = host.arrange (Digits.digits t.width n) := rfl

theorem number_lt : o.number host < 256 ^ t.width := by
  have bound := Digits.number_lt (host.arrange o.bytes)
  rwa [Endian.length_arrange, o.length_bytes] at bound

theorem number_ofNumber {n : ℕ} (h : n < 256 ^ t.width) : (ofNumber host t n).number host = n := by
  rw [number, bytes_ofNumber, Endian.arrange_arrange, Digits.number_digits, Nat.mod_eq_of_lt h]

theorem arrange_bytes : host.arrange o.bytes = Digits.digits t.width (o.number host) := by
  have all := Digits.digits_number (host.arrange o.bytes)
  rw [Endian.length_arrange, o.length_bytes] at all
  exact all.symm

theorem number_eq_of_value_eq {host' : Endian} {o' : Object t}
    (same : o.value host = o'.value host') : o.number host = o'.number host' :=
  IntType.decode_injective number_lt number_lt same

theorem exists_value (host : Endian) {t : IntType} {v : ℤ} (has : t.Has v) :
    ∃ o : Object t, o.value host = v := by
  have bound : ((256 ^ t.width : ℕ) : ℤ) = 256 ^ t.width := by push_cast; rfl
  rw [IntType.Has, ← bound] at has
  by_cases negative : v < 0
  · have signed : t.signed := by
      by_contra unsigned
      rw [if_neg unsigned] at has
      omega
    rw [if_pos signed] at has
    refine ⟨ofNumber host t (v + (256 ^ t.width : ℕ)).toNat, ?_⟩
    rw [value, number_ofNumber (by omega), IntType.decode, if_pos ⟨signed, by omega⟩, ← bound]
    omega
  · have below : v < (256 ^ t.width : ℕ) := by split_ifs at has <;> omega
    refine ⟨ofNumber host t v.toNat, ?_⟩
    rw [value, number_ofNumber (by omega), IntType.decode, if_neg ?_, Int.toNat_of_nonneg (by omega)]
    rintro ⟨signed, large⟩
    rw [if_pos signed] at has
    omega

end Object
end Celestite
