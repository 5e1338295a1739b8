import Mathlib.Algebra.Order.Ring.Nat
import Celestite.Sequential.Decimal

/-!
# Formatted input

`sscanf` with a format whose only conversion is `%lu`, into an `unsigned long` of 64 bits.
-/

namespace Celestite.Sequential.Scanf

/-- `isspace` in the "C" locale. -/
def isSpace (c : Char) : Bool := [' ', '\t', '\n', '\x0b', '\x0c', '\r'].contains c

inductive Directive where
  | space
  | char (c : Char)
  | lu
  deriving DecidableEq

def directives : List Char → List Directive
  | '%' :: 'l' :: 'u' :: format => .lu :: directives format
  | c :: format => (if isSpace c then .space else .char c) :: directives format
  | [] => []

/-- The number that the digits at the front make. -/
def number (cs : List Char) : Option ℕ :=
  if cs.takeWhile Char.isDigit = [] then none
  else some (Decimal.value (cs.takeWhile Char.isDigit))

/-- A number after `-` is negated in its type. One that is too large for the type becomes the largest
one, with either sign. -/
def unsigned (negative : Bool) (n : ℕ) : ℕ :=
  if 2 ^ 64 ≤ n then 2 ^ 64 - 1
  else if negative then (2 ^ 64 - n) % 2 ^ 64 else n

/-- With a sign or without. -/
def strtoul : List Char → Option ℕ
  | '-' :: cs => (number cs).map (unsigned true)
  | '+' :: cs => (number cs).map (unsigned false)
  | cs => (number cs).map (unsigned false)

/-- What is assigned; the directives after the conversion cannot take that back. -/
def scan : List Directive → List Char → Option ℕ
  | .space :: ds, cs => scan ds (cs.dropWhile isSpace)
  | .char c :: ds, x :: cs => if x = c then scan ds cs else none
  | .char _ :: _, [] => none
  | .lu :: _, cs => strtoul (cs.dropWhile isSpace)
  | [], _ => none

/-- The number that `std::sscanf(line.c_str(), format, &n) == 1` leaves in `n`, and nothing where the
call does not return 1. -/
def sscanf (line format : List Char) : Option ℕ := scan (directives format) (line.takeWhile (· ≠ '\x00'))

variable {ds : List Directive} {key cs rest blanks digits : List Char} {v : ℕ}

theorem scan_key_append : scan (key.map .char ++ ds) (key ++ cs) = scan ds cs := by
  induction key with
  | nil => rfl
  | cons c key ih => simpa [scan] using ih

/-- What is not there cannot be read over. -/
theorem prefix_of_scan (read : scan (key.map .char ++ ds) cs = some v) : key <+: cs := by
  induction key generalizing cs with
  | nil => exact List.nil_prefix
  | cons c key ih =>
    cases cs with
    | nil => simp [scan] at read
    | cons x cs =>
      simp only [List.map_cons, List.cons_append, scan] at read
      split_ifs at read with same
      rw [same]
      exact List.cons_prefix_cons.mpr ⟨rfl, ih read⟩

theorem takeWhile_digits (all : ∀ c ∈ digits, c.isDigit = true) (stops : ∀ c, rest.head? = some c → c.isDigit = false) :
    (digits ++ rest).takeWhile Char.isDigit = digits := by
  rw [List.takeWhile_append_of_pos all]
  cases rest with
  | nil => simp
  | cons c rest => simp [stops c rfl]

theorem not_space_of_digit {c : Char} (digit : c.isDigit = true) : isSpace c = false := by
  by_contra space
  rw [Bool.not_eq_false, isSpace, List.contains_iff_mem] at space
  simp only [List.mem_cons, List.not_mem_nil, or_false] at space
  rcases space with rfl | rfl | rfl | rfl | rfl | rfl <;> contradiction

theorem strtoul_digits (ne : digits ≠ []) (all : ∀ c ∈ digits, c.isDigit = true)
    (stops : ∀ c, rest.head? = some c → c.isDigit = false) (small : Decimal.value digits < 2 ^ 64) :
    strtoul (digits ++ rest) = some (Decimal.value digits) := by
  have plain : strtoul (digits ++ rest) = (number (digits ++ rest)).map (unsigned false) := by
    cases digits with
    | nil => contradiction
    | cons d digits =>
      have digit := all d (.head _)
      rw [List.cons_append, strtoul]
      · rintro cs ⟨⟩
        contradiction
      · rintro cs ⟨⟩
        contradiction
  have fits : unsigned false (Decimal.value digits) = Decimal.value digits := if_neg small.not_ge
  rw [plain, number, takeWhile_digits all stops, if_neg ne, Option.map_some, fits]

/-- Blanks and a number after the key. -/
theorem scan_number (spaces : ∀ c ∈ blanks, isSpace c = true) (ne : digits ≠ [])
    (all : ∀ c ∈ digits, c.isDigit = true) (stops : ∀ c, rest.head? = some c → c.isDigit = false)
    (small : Decimal.value digits < 2 ^ 64) :
    scan (.space :: .lu :: ds) (blanks ++ digits ++ rest) = some (Decimal.value digits) := by
  have kept : (digits ++ rest).dropWhile isSpace = digits ++ rest := by
    cases digits with
    | nil => contradiction
    | cons d digits => simp [not_space_of_digit (all d (.head _))]
  rw [List.append_assoc, scan, List.dropWhile_append_of_pos spaces, kept, scan, kept,
    strtoul_digits ne all stops small]

end Celestite.Sequential.Scanf
