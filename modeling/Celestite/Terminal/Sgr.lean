import Celestite.Sequential.Decimal

/-!
# Graphic renditions

The sequence `ESC [ p ; … ; p m` selects renditions by its decimal parameters, from left to right. After 38 or
48 stands a color: 5 and its number, or 2 and its three components.
-/

namespace Celestite.Terminal
open Celestite.Sequential

inductive Layer where
  | fg
  | bg
  deriving DecidableEq

inductive Command where
  | single (n : ℕ)
  | indexed (layer : Layer) (id : ℕ)
  | rgb (layer : Layer) (r g b : ℕ)
  deriving DecidableEq

def Layer.param : Layer → ℕ
  | .fg => 38
  | .bg => 48

def Command.params : Command → List ℕ
  | .single n => [n]
  | .indexed layer id => [layer.param, 5, id]
  | .rgb layer r g b => [layer.param, 2, r, g, b]

/-- No single parameter announces a color. -/
def Command.Plain (command : Command) : Prop := command ≠ .single 38 ∧ command ≠ .single 48

/-- The commands of a color and of what follows it. -/
def commands : List ℕ → Option (List Command)
  | [] => some []
  | n :: params =>
    if n = 38 ∨ n = 48 then
      let layer := if n = 38 then Layer.fg else .bg
      match params with
      | 5 :: id :: params => (commands params).map (.indexed layer id :: ·)
      | 2 :: r :: g :: b :: params => (commands params).map (.rgb layer r g b :: ·)
      | _ => none
    else (commands params).map (.single n :: ·)

/-- No digits count as 0. -/
def parameter (text : List Char) : Option ℕ := if text.all Char.isDigit then some (Decimal.value text) else none

/-- What stands between `[` and `m`. -/
def decode (body : List Char) : Option (List Command) := ((body.splitOn ';').mapM parameter).bind commands

def rendition (body : List Char) : List Char := '\x1b' :: '[' :: (body ++ ['m'])

/-- The commands of a whole sequence. -/
def read : List Char → Option (List Command)
  | '\x1b' :: '[' :: cs => if cs.getLast? = some 'm' then decode cs.dropLast else none
  | _ => none

variable {command : Command} {list : List Command} {params : List ℕ} {text body : List Char}
  {texts more : List (List Char)} {sep c : Char}

theorem commands_append (plain : command.Plain) :
    commands (command.params ++ params) = (commands params).map (command :: ·) := by
  cases command with
  | single n =>
    have other : ¬(n = 38 ∨ n = 48) := by
      rintro (rfl | rfl)
      · exact plain.1 rfl
      · exact plain.2 rfl
    show commands (n :: params) = _
    rw [commands.eq_def]
    simp only [if_neg other]
  | indexed layer id =>
    cases layer with
    | fg => rfl
    | bg => rfl
  | rgb layer r g b =>
    cases layer with
    | fg => rfl
    | bg => rfl

/-- Parameters are read back as the commands that they are from. -/
theorem commands_flatMap (plain : ∀ command ∈ list, command.Plain) : commands (list.flatMap Command.params) = some list := by
  induction list with
  | nil => rfl
  | cons command list ih =>
    rw [List.flatMap_cons, commands_append (plain command (.head _)), ih fun other mem => plain other (.tail _ mem)]
    rfl

theorem commands_singles (plain : ∀ n ∈ params, (Command.single n).Plain) :
    commands params = some (params.map Command.single) := by
  induction params with
  | nil => rfl
  | cons n params ih =>
    apply (commands_append (plain n (.head _))).trans
    rw [ih fun other mem => plain other (.tail _ mem)]
    rfl

theorem parameter_digits (digits : ∀ c ∈ text, c.isDigit = true) : parameter text = some (Decimal.value text) := by
  rw [parameter, if_pos (List.all_eq_true.mpr digits)]

theorem mapM_parameter (digits : ∀ text ∈ texts, ∀ c ∈ text, c.isDigit = true) :
    texts.mapM parameter = some (texts.map Decimal.value) := by
  induction texts with
  | nil => rfl
  | cons text texts ih =>
    rw [List.mapM_cons, parameter_digits (digits text (.head _)), ih fun other mem => digits other (.tail _ mem)]
    rfl

theorem splitOn_digits (ne : texts ≠ []) (digits : ∀ text ∈ texts, ∀ c ∈ text, c.isDigit = true) :
    ([';'].intercalate texts).splitOn ';' = texts := by
  apply List.splitOn_intercalate ';' _ ne
  intro text mem semicolon
  exact absurd (digits text mem ';' semicolon) (by decide)

theorem decode_intercalate (ne : texts ≠ []) (digits : ∀ text ∈ texts, ∀ c ∈ text, c.isDigit = true) :
    decode ([';'].intercalate texts) = commands (texts.map Decimal.value) := by
  rw [decode, splitOn_digits ne digits, mapM_parameter digits]
  rfl

theorem read_rendition : read (rendition body) = decode body := by
  simp [read, rendition]

theorem mem_intercalate (mem : c ∈ [sep].intercalate texts) : c = sep ∨ ∃ text ∈ texts, c ∈ text := by
  induction texts with
  | nil => cases mem
  | cons text texts ih =>
    cases texts with
    | nil => exact .inr ⟨text, .head _, by simpa using mem⟩
    | cons next texts =>
      rw [List.intercalate_cons_cons, List.mem_append, List.mem_append, List.mem_singleton] at mem
      rcases mem with (mem | mem) | mem
      · exact .inr ⟨text, .head _, mem⟩
      · exact .inl mem
      · exact (ih mem).imp_right fun ⟨other, mem, char⟩ => ⟨other, .tail _ mem, char⟩

theorem intercalate_append (ne : texts ≠ []) (ne' : more ≠ []) :
    [sep].intercalate (texts ++ more) = [sep].intercalate texts ++ sep :: [sep].intercalate more := by
  induction texts with
  | nil => contradiction
  | cons text texts ih =>
    cases texts with
    | nil => simp [List.intercalate_cons_of_ne_nil ne']
    | cons next texts =>
      rw [List.cons_append, List.cons_append, List.intercalate_cons_cons, ← List.cons_append, ih (by simp)]
      simp

end Celestite.Terminal
