import Celestite.Terminal.Screen
import Celestite.TermColor.Decode

/-!
# Wrappers restore the terminal

A reset takes back whatever its style can have set, but not what an outer wrapper had set before. So an output
leaves each attribute as it was or back to normal.
-/

namespace Celestite.TermColor
open Celestite.Sequential Celestite.Terminal

def AnsiColor.color : AnsiColor → Color
  | default => .default
  | black => .ansi 0
  | red => .ansi 1
  | green => .ansi 2
  | yellow => .ansi 3
  | blue => .ansi 4
  | magenta => .ansi 5
  | cyan => .ansi 6
  | white => .ansi 7

/-- What a style is for. -/
def Style.paint (a : Attributes) : Style → Attributes
  | reset => Attribute.normal
  | colorFg color => a.setColor .fg color.color
  | colorBg color => a.setColor .bg color.color
  | fg256 id => a.setColor .fg (.indexed id)
  | bg256 id => a.setColor .bg (.indexed id)
  | rgbFg r g b => a.setColor .fg (.rgb r g b)
  | rgbBg r g b => a.setColor .bg (.rgb r g b)
  | bold => a.setFlag .bold
  | dim => a.setFlag .dim
  | italic => a.setFlag .italic
  | underline => a.setFlag .underline
  | blinking => a.setFlag .blink
  | inverse => a.setFlag .inverse
  | hidden => a.setFlag .hidden
  | strikethrough => a.setFlag .strike

def Resettable.param : Resettable → ℕ
  | ⟨.reset, never⟩ => absurd rfl never
  | ⟨.colorFg _, _⟩ => 39
  | ⟨.colorBg _, _⟩ => 49
  | ⟨.fg256 _, _⟩ => 39
  | ⟨.bg256 _, _⟩ => 49
  | ⟨.rgbFg .., _⟩ => 39
  | ⟨.rgbBg .., _⟩ => 49
  | ⟨.bold, _⟩ => 22
  | ⟨.dim, _⟩ => 22
  | ⟨.italic, _⟩ => 23
  | ⟨.underline, _⟩ => 24
  | ⟨.blinking, _⟩ => 25
  | ⟨.inverse, _⟩ => 27
  | ⟨.hidden, _⟩ => 28
  | ⟨.strikethrough, _⟩ => 29

variable {style : Style} {impl : Resettable} {impls : List Resettable} {a : Attributes} {p : Attribute} {t : State}
  {output : Output} {outputs : List Output} {chars : List Char}

theorem apply_command : a.apply style.command = style.paint a := by
  cases style with
  | colorFg color => cases color <;> rfl
  | colorBg color => cases color <;> rfl
  | _ => rfl

theorem reset_eq_digits : impl.reset = digits impl.param := by
  obtain ⟨style, resets⟩ := impl
  cases style with
  | reset => contradiction
  | _ => rfl

theorem single_param : a.single impl.param = (clears impl.param).foldl Attribute.clear a := by
  obtain ⟨style, resets⟩ := impl
  cases style with
  | reset => contradiction
  | _ => rfl

/-- A style touches only what its reset clears. -/
theorem paint_of_not_mem (other : p ∉ clears impl.param) : impl.val.paint a p = a p := by
  obtain ⟨style, resets⟩ := impl
  cases style with
  | reset => contradiction
  | _ =>
    apply Function.update_of_ne
    rintro rfl
    simp [Resettable.param, clears] at other

theorem paint_all_of_not_mem (other : ∀ impl ∈ impls, p ∉ clears impl.param) :
    (impls.map Subtype.val).foldl Style.paint a p = a p := by
  induction impls generalizing a with
  | nil => rfl
  | cons impl impls ih =>
    rw [List.map_cons, List.foldl_cons, ih fun impl mem => other impl (.tail _ mem)]
    exact paint_of_not_mem (other impl (.head _))

theorem run_seq {impl : Style} {impls : List Style} (ground : t.parser = .ground) : t.run (seq impl impls) =
    { t with attributes := (impl :: impls).foldl Style.paint t.attributes } := by
  rw [seq_eq, State.run_rendition ground body_chars, Attributes.render, decode_seq]
  simp only [List.foldl_map, apply_command]

theorem reset_eq : reset impl impls = rendition (body ((impl :: impls).map Resettable.param)) := by
  have written (impl : Resettable) : impl.reset = body [impl.param] := by rw [body_singleton, reset_eq_digits]
  rw [reset, join_body written fun _ => List.cons_ne_nil _ _, List.map_eq_flatMap]
  rfl

theorem param_plain : (Command.single impl.param).Plain := by
  obtain ⟨style, resets⟩ := impl
  cases style with
  | reset => contradiction
  | _ => simp [Command.Plain, Resettable.param]

/-- One after the other, each list of what a parameter clears. -/
theorem foldl_single : ((impls.map Resettable.param).map Command.single).foldl Attributes.apply a =
    (impls.flatMap fun impl => clears impl.param).foldl Attribute.clear a := by
  induction impls generalizing a with
  | nil => rfl
  | cons impl impls ih =>
    rw [List.flatMap_cons, List.foldl_append, ← single_param]
    exact ih

theorem run_reset (ground : t.parser = .ground) : t.run (reset impl impls) = { t with
    attributes := ((impl :: impls).flatMap fun impl => clears impl.param).foldl Attribute.clear t.attributes } := by
  have plain : ∀ n ∈ (impl :: impls).map Resettable.param, (Command.single n).Plain :=
    List.forall_mem_map.mpr fun impl _ => param_plain
  rw [reset_eq, State.run_rendition ground body_chars, Attributes.render, decode_body (by simp),
    commands_singles plain]
  simp only [foldl_single]

/-- Attributes are not restored but settle: an inner wrapper takes back what an outer one has set. -/
def Settles (chars : List Char) : Prop :=
  ∀ t : State, t.parser = .ground →
    (t.run chars).parser = .ground ∧ Attributes.Settled t.attributes (t.run chars).attributes

theorem Settles.wrap (inner : Settles chars) :
    Settles (seq impl (impls.map Subtype.val) ++ chars ++ reset impl impls) := by
  intro t ground
  rw [State.run_append, State.run_append, run_seq ground]
  have kept : ∀ p ∉ (impl :: impls).flatMap fun impl => clears impl.param,
      (impl.val :: impls.map Subtype.val).foldl Style.paint t.attributes p = t.attributes p := by
    intro p other
    apply @paint_all_of_not_mem (impl :: impls)
    intro impl mem cleared
    exact other (List.mem_flatMap.mpr ⟨impl, mem, cleared⟩)
  generalize (impl.val :: impls.map Subtype.val).foldl Style.paint t.attributes = painted at kept ⊢
  obtain ⟨ground', settled⟩ := inner { t with attributes := painted } ground
  rw [run_reset ground']
  refine ⟨ground', fun p => ?_⟩
  dsimp only
  rw [Attributes.foldl_clear]
  by_cases taken : p ∈ (impl :: impls).flatMap fun impl => clears impl.param
  · exact .inr (if_pos taken)
  · rw [if_neg taken]
    exact (settled p).imp_left fun same => same.trans (kept p taken)

theorem settles_write : Settles output.write := by
  induction output with
  | text chars =>
    intro t ground
    rw [Output.write, State.run_text ground chars.property]
    exact ⟨ground, fun _ => .inl rfl⟩
  | outputWrapper inner impl impls ih => exact ih.wrap
  | conditionalOutputWrapper cond inner impl impls ih =>
    cases cond with
    | true => exact ih.wrap
    | false => exact ih

theorem default_run (start : t.Default) (settles : Settles chars) : (t.run chars).Default := by
  obtain ⟨ground, settled⟩ := settles t start.parser
  rw [start.attributes] at settled
  exact ⟨settled.normal, ground⟩

theorem default_outputs (start : t.Default) : (t.run (outputs.flatMap Output.write)).Default := by
  induction outputs generalizing t with
  | nil => exact start
  | cons output outputs ih =>
    rw [List.flatMap_cons, State.run_append]
    exact ih (default_run start settles_write)

theorem reset_shows_nothing (ground : t.parser = .ground) : (t.run (reset impl impls)).screen = t.screen := by
  rw [run_reset ground]

/-- Text in one wrapper is shown in the styles of this wrapper. -/
theorem screen_wrapped (start : t.Default) (plain : '\x1b' ∉ chars) :
    (t.run (seq impl (impls.map Subtype.val) ++ chars ++ reset impl impls)).screen =
      t.screen ++ chars.map fun c => (c, ((impl :: impls).map Subtype.val).foldl Style.paint Attribute.normal) := by
  rw [State.run_append, State.run_append, run_seq start.parser, start.attributes, List.map_cons]
  generalize (impl.val :: impls.map Subtype.val).foldl Style.paint Attribute.normal = painted
  rw [State.run_text (t := { t with attributes := painted }) start.parser plain]
  exact reset_shows_nothing start.parser

/-- From the default state back to it, and text in one wrapper is shown in its styles. -/
theorem styled_output_restores (t : State) (start : t.Default) (outputs : List Output) :
    (t.run (outputs.flatMap Output.write)).Default ∧
    ∀ (text : PlainText) (impl : Resettable) (impls : List Resettable) (output : Output),
      output = .outputWrapper (.text text) impl impls ∨
        output = .conditionalOutputWrapper true (.text text) impl impls →
      (t.run ((outputs ++ [output]).flatMap Output.write)).screen =
        (t.run (outputs.flatMap Output.write)).screen ++ text.val.map fun c =>
          (c, ((impl :: impls).map Subtype.val).foldl Style.paint Attribute.normal) := by
  refine ⟨default_outputs start, fun text impl impls output one => ?_⟩
  have written : output.write = seq impl (impls.map Subtype.val) ++ text.val ++ reset impl impls := by
    rcases one with rfl | rfl
    · rfl
    · rfl
  rw [List.flatMap_append, State.run_append, List.flatMap_singleton, written]
  exact screen_wrapped (default_outputs start) text.property

theorem styled_output_restores_nested :
    ((⟨Attribute.normal, .ground, []⟩ : State).run
      ([.outputWrapper (.conditionalOutputWrapper true (.text ⟨['x'], by decide⟩) ⟨.bold, by decide⟩ [])
        ⟨.dim, by decide⟩ [⟨.rgbFg 1 2 3, by decide⟩]].flatMap Output.write)).Default :=
  (styled_output_restores _ ⟨rfl, rfl⟩ _).1

end Celestite.TermColor
