import Mathlib.Logic.Function.Basic
import Celestite.Terminal.Sgr

/-!
# Terminals

A terminal shows each character with the attributes that were selected before it.
-/

namespace Celestite.Terminal

inductive Color where
  | default
  | ansi (i : ℕ)
  | indexed (id : ℕ)
  | rgb (r g b : ℕ)
  deriving DecidableEq

inductive Flag where
  | bold
  | dim
  | italic
  | underline
  | blink
  | inverse
  | hidden
  | strike
  deriving DecidableEq

/-- What the state of a terminal has a value for. -/
inductive Attribute where
  | color (layer : Layer)
  | flag (flag : Flag)
  deriving DecidableEq

abbrev Attribute.Value : Attribute → Type
  | color _ => Color
  | flag _ => Bool

abbrev Attributes := (p : Attribute) → p.Value

def Attribute.normal : Attributes
  | color _ => .default
  | flag _ => false

def Attribute.clear (a : Attributes) (p : Attribute) : Attributes := Function.update a p p.normal

/-- What a parameter on its own takes back. -/
def clears : ℕ → List Attribute
  | 22 => [.flag .bold, .flag .dim]
  | 23 => [.flag .italic]
  | 24 => [.flag .underline]
  | 25 => [.flag .blink]
  | 27 => [.flag .inverse]
  | 28 => [.flag .hidden]
  | 29 => [.flag .strike]
  | 39 => [.color .fg]
  | 49 => [.color .bg]
  | _ => []

/-- The flag that a parameter on its own sets. -/
def sets : ℕ → Option Flag
  | 1 => some .bold
  | 2 => some .dim
  | 3 => some .italic
  | 4 => some .underline
  | 5 => some .blink
  | 7 => some .inverse
  | 8 => some .hidden
  | 9 => some .strike
  | _ => none

namespace Attributes

def setColor (layer : Layer) (color : Color) (a : Attributes) : Attributes :=
  Function.update a (.color layer) color

def setFlag (flag : Flag) (a : Attributes) : Attributes := Function.update a (.flag flag) true

def single (a : Attributes) (n : ℕ) : Attributes :=
  if n = 0 then Attribute.normal
  else if 30 ≤ n ∧ n ≤ 37 then a.setColor .fg (.ansi (n - 30))
  else if 40 ≤ n ∧ n ≤ 47 then a.setColor .bg (.ansi (n - 40))
  else
    match sets n with
    | some flag => a.setFlag flag
    | none => (clears n).foldl Attribute.clear a

def apply (a : Attributes) : Command → Attributes
  | .single n => a.single n
  | .indexed layer id => a.setColor layer (.indexed id)
  | .rgb layer r g b => a.setColor layer (.rgb r g b)

/-- A body that cannot be read changes nothing. -/
def render (a : Attributes) (body : List Char) : Attributes :=
  match decode body with
  | some list => list.foldl apply a
  | none => a

/-- Each attribute is as before or back to normal. -/
def Settled (before after : Attributes) : Prop := ∀ p, after p = before p ∨ after p = p.normal

theorem Settled.normal {a : Attributes} (settled : Settled Attribute.normal a) : a = Attribute.normal :=
  funext fun p => (settled p).elim id id

theorem foldl_clear {ps : List Attribute} {a : Attributes} {p : Attribute} :
    ps.foldl Attribute.clear a p = if p ∈ ps then p.normal else a p := by
  induction ps generalizing a with
  | nil => rfl
  | cons q ps ih =>
    rw [List.foldl_cons, ih, Attribute.clear]
    by_cases later : p ∈ ps
    · simp [later]
    · by_cases same : p = q
      · subst same
        simp
      · simp [later, same]

end Attributes

inductive Parser where
  | ground
  | escape
  | csi (body : List Char)

structure State where
  attributes : Attributes
  parser : Parser
  screen : List (Char × Attributes)

namespace State

def feed (t : State) (c : Char) : State :=
  match t.parser with
  | .ground =>
    if c = '\x1b' then { t with parser := .escape }
    else { t with screen := t.screen ++ [(c, t.attributes)] }
  | .escape => { t with parser := if c = '[' then .csi [] else .ground }
  | .csi body =>
    if c.isDigit ∨ c = ';' then { t with parser := .csi (body ++ [c]) }
    else if c = 'm' then { t with parser := .ground, attributes := t.attributes.render body }
    else { t with parser := .ground }

def run (t : State) (cs : List Char) : State := cs.foldl feed t

/-- As after a reset of the terminal, with what was shown still there. -/
structure Default (t : State) : Prop where
  attributes : t.attributes = Attribute.normal
  parser : t.parser = .ground

variable {t : State} {cs more body front : List Char}

theorem run_append : t.run (cs ++ more) = (t.run cs).run more := List.foldl_append

/-- Text is shown as it is, with the attributes of the moment. -/
theorem run_text (ground : t.parser = .ground) (plain : '\x1b' ∉ cs) :
    t.run cs = { t with screen := t.screen ++ cs.map fun c => (c, t.attributes) } := by
  induction cs generalizing t with
  | nil => simp [run]
  | cons c cs ih =>
    rw [List.mem_cons, not_or] at plain
    have fed : t.feed c = { t with screen := t.screen ++ [(c, t.attributes)] } := by
      rw [feed, ground]
      exact if_neg (Ne.symm plain.1)
    rw [run, List.foldl_cons, fed]
    apply (@ih { t with screen := t.screen ++ [(c, t.attributes)] } ground plain.2).trans
    simp

theorem run_body (csi : t.parser = .csi front) (chars : ∀ c ∈ body, c.isDigit = true ∨ c = ';') :
    t.run body = { t with parser := .csi (front ++ body) } := by
  induction body generalizing t front with
  | nil => simp [run, ← csi]
  | cons c body ih =>
    have fed : t.feed c = { t with parser := .csi (front ++ [c]) } := by
      rw [feed, csi]
      exact if_pos (chars c (.head _))
    rw [run, List.foldl_cons, fed]
    apply (ih rfl fun other mem => chars other (.tail _ mem)).trans
    simp

theorem run_rendition (ground : t.parser = .ground) (chars : ∀ c ∈ body, c.isDigit = true ∨ c = ';') :
    t.run (rendition body) = { t with attributes := t.attributes.render body } := by
  have opened : (t.feed '\x1b').feed '[' = { t with parser := .csi [] } := by simp [feed, ground]
  show ((t.feed '\x1b').feed '[').run (body ++ ['m']) = _
  rw [opened, run_append, run_body rfl chars]
  simp [run, feed, ground]

end State
end Celestite.Terminal
