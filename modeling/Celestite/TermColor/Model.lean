import Celestite.Sequential.Decimal

/-!
# Styles

`clst::term`: escape sequences that are built as fixed strings, and the wrappers that put one before and one
after what they print.
-/

namespace Celestite.TermColor
open Celestite.Sequential

abbrev FixedString := List Char

def push (fs : FixedString) (c : Char) : FixedString := fs ++ [c]

def mkfs (arr : String) : FixedString := arr.toList

def digits (num : ℕ) : FixedString :=
  if 10 ≤ num then push (digits (num / 10)) (Decimal.digitChar (num % 10)) else [Decimal.digitChar num]

/-- The first string is apart since there is always one. -/
def join (sep : Char) : FixedString → List FixedString → FixedString
  | fs, [] => fs
  | fs, arg :: args => push fs sep ++ join sep arg args

inductive AnsiColor where
  | default
  | black
  | red
  | green
  | yellow
  | blue
  | magenta
  | cyan
  | white
  deriving DecidableEq

structure ColorCode where
  fg : ℕ
  bg : ℕ

def getColorCode : AnsiColor → ColorCode
  | .default => ⟨39, 49⟩
  | .black => ⟨30, 40⟩
  | .red => ⟨31, 41⟩
  | .green => ⟨32, 42⟩
  | .yellow => ⟨33, 43⟩
  | .blue => ⟨34, 44⟩
  | .magenta => ⟨35, 45⟩
  | .cyan => ⟨36, 46⟩
  | .white => ⟨37, 47⟩

inductive Style where
  | reset
  | colorFg (color : AnsiColor)
  | colorBg (color : AnsiColor)
  | fg256 (id : ℕ)
  | bg256 (id : ℕ)
  | rgbFg (r g b : ℕ)
  | rgbBg (r g b : ℕ)
  | bold
  | dim
  | italic
  | underline
  | blinking
  | inverse
  | hidden
  | strikethrough
  deriving DecidableEq

def Style.code : Style → FixedString
  | reset => digits 0
  | colorFg color => digits (getColorCode color).fg
  | colorBg color => digits (getColorCode color).bg
  | fg256 id => mkfs "38;5;" ++ digits id
  | bg256 id => mkfs "48;5;" ++ digits id
  | rgbFg r g b => mkfs "38;2;" ++ join ';' (digits r) [digits g, digits b]
  | rgbBg r g b => mkfs "48;2;" ++ join ';' (digits r) [digits g, digits b]
  | bold => digits 1
  | dim => digits 2
  | italic => digits 3
  | underline => digits 4
  | blinking => digits 5
  | inverse => digits 7
  | hidden => digits 8
  | strikethrough => digits 9

def seq (impl : Style) (impls : List Style) : FixedString :=
  mkfs "\x1b[" ++ join ';' impl.code (impls.map Style.code) ++ mkfs "m"

/-- `Reset` has no `reset` of its own, and wrappers with it do not compile. -/
abbrev Resettable := {style : Style // style ≠ .reset}

def Resettable.reset : Resettable → FixedString
  | ⟨.reset, never⟩ => absurd rfl never
  | ⟨.colorFg _, _⟩ => digits 39
  | ⟨.colorBg _, _⟩ => digits 49
  | ⟨.fg256 _, _⟩ => digits 39
  | ⟨.bg256 _, _⟩ => digits 49
  | ⟨.rgbFg .., _⟩ => digits 39
  | ⟨.rgbBg .., _⟩ => digits 49
  | ⟨.bold, _⟩ => digits 22
  | ⟨.dim, _⟩ => digits 22
  | ⟨.italic, _⟩ => digits 23
  | ⟨.underline, _⟩ => digits 24
  | ⟨.blinking, _⟩ => digits 25
  | ⟨.inverse, _⟩ => digits 27
  | ⟨.hidden, _⟩ => digits 28
  | ⟨.strikethrough, _⟩ => digits 29

def reset (impl : Resettable) (impls : List Resettable) : FixedString :=
  mkfs "\x1b[" ++ join ';' impl.reset (impls.map Resettable.reset) ++ mkfs "m"

/-- Text without escapes of its own. -/
abbrev PlainText := {chars : List Char // '\x1b' ∉ chars}

/-- What is printed: text, or another output in a wrapper. -/
inductive Output where
  | text (chars : PlainText)
  | outputWrapper (inner : Output) (impl : Resettable) (impls : List Resettable)
  | conditionalOutputWrapper (cond : Bool) (inner : Output) (impl : Resettable) (impls : List Resettable)

/-- `operator<<`. -/
def Output.write : Output → List Char
  | text chars => chars.val
  | outputWrapper inner impl impls => seq impl (impls.map Subtype.val) ++ inner.write ++ reset impl impls
  | conditionalOutputWrapper cond inner impl impls =>
    if cond then seq impl (impls.map Subtype.val) ++ inner.write ++ reset impl impls else inner.write

variable {num : ℕ}

theorem digits_one (small : num < 10) : digits num = [Decimal.digitChar num] := by
  rw [digits, if_neg (by omega)]

theorem digits_two (large : 10 ≤ num) (small : num < 100) :
    digits num = [Decimal.digitChar (num / 10), Decimal.digitChar (num % 10)] := by
  rw [digits, if_pos large, digits_one (by omega)]
  rfl

/-- Decimal, without zeros in front. -/
theorem digits_spec : Decimal.Canonical (digits num) ∧ Decimal.value (digits num) = num := by
  induction num using digits.induct with
  | case1 num large ih =>
    have last : num % 10 < 10 := Nat.mod_lt _ (by decide)
    rw [digits, if_pos large, push]
    constructor
    · apply ih.1.snoc _ last
      rw [ih.2]
      omega
    · rw [Decimal.value_snoc, ih.2, Decimal.digitValue_digitChar _ last]
      omega
  | case2 num small =>
    have digit : num < 10 := by omega
    rw [digits_one digit]
    exact ⟨Decimal.canonical_digit digit, by rw [Decimal.value_singleton, Decimal.digitValue_digitChar _ digit]⟩

end Celestite.TermColor
