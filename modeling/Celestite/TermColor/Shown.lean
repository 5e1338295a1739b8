import Celestite.TermColor.Restore

/-!
# What outputs show

The meaning of an output: the characters it shows, each in the styles of the wrappers around it, and
what it leaves of the attributes. A terminal that is fed what is written shows just this.
-/

namespace Celestite.TermColor
open Celestite.Terminal

def paintAll (impls : List Resettable) (a : Attributes) : Attributes :=
  (impls.map Subtype.val).foldl Style.paint a

def takeBack (impls : List Resettable) (a : Attributes) : Attributes :=
  (impls.flatMap fun impl => clears impl.param).foldl Attribute.clear a

namespace Output

def plain : Output → List Char
  | .text chars => chars.val
  | outputWrapper inner _ _ => inner.plain
  | conditionalOutputWrapper _ inner _ _ => inner.plain

def shown : Output → Attributes → List (Char × Attributes)
  | .text chars, a => chars.val.map fun c => (c, a)
  | outputWrapper inner impl impls, a => inner.shown (paintAll (impl :: impls) a)
  | conditionalOutputWrapper cond inner impl impls, a =>
    inner.shown (if cond then paintAll (impl :: impls) a else a)

def leaves : Output → Attributes → Attributes
  | .text _, a => a
  | outputWrapper inner impl impls, a => takeBack (impl :: impls) (inner.leaves (paintAll (impl :: impls) a))
  | conditionalOutputWrapper cond inner impl impls, a =>
    if cond then takeBack (impl :: impls) (inner.leaves (paintAll (impl :: impls) a)) else inner.leaves a

/-- No wrapper applies. -/
def Off : Output → Prop
  | .text _ => True
  | outputWrapper _ _ _ => False
  | conditionalOutputWrapper cond inner _ _ => cond = false ∧ inner.Off

/-- One output after the other. -/
def shownAll : List Output → Attributes → List (Char × Attributes)
  | [], _ => []
  | output :: outputs, a => output.shown a ++ shownAll outputs (output.leaves a)

end Output

section
variable {t : State} {output : Output} {outputs : List Output} {chars : List Char} {impl : Resettable}
  {impls : List Resettable} {shown : List (Char × Attributes)} {a b : Attributes}

/-- Characters that show something from these attributes on and leave those. -/
def Shows (chars : List Char) (a : Attributes) (shown : List (Char × Attributes)) (b : Attributes) : Prop :=
  ∀ t : State, t.parser = .ground → t.attributes = a →
    t.run chars = { t with screen := t.screen ++ shown, attributes := b }

theorem Shows.wrap (inner : Shows chars (paintAll (impl :: impls) a) shown b) :
    Shows (seq impl (impls.map Subtype.val) ++ chars ++ reset impl impls) a shown
      (takeBack (impl :: impls) b) := by
  intro t ground start
  have painted : t.run (seq impl (impls.map Subtype.val)) = { t with attributes := paintAll (impl :: impls) a } := by
    rw [run_seq ground, start]
    rfl
  rw [State.run_append, State.run_append, painted,
    inner { t with attributes := paintAll (impl :: impls) a } ground rfl,
    @run_reset _ _ { t with screen := t.screen ++ shown, attributes := b } ground]
  rfl

theorem shows_write : Shows output.write a (output.shown a) (output.leaves a) := by
  induction output generalizing a with
  | text chars =>
    rintro t ground rfl
    exact State.run_text ground chars.property
  | outputWrapper inner impl impls ih => exact ih.wrap
  | conditionalOutputWrapper cond inner impl impls ih =>
    cases cond with
    | true => exact ih.wrap
    | false => exact ih

theorem shown_chars : (output.shown a).map Prod.fst = output.plain := by
  induction output generalizing a with
  | text chars =>
    rw [Output.shown, List.map_map]
    exact List.map_id _
  | outputWrapper inner impl impls ih => exact ih
  | conditionalOutputWrapper cond inner impl impls ih => exact ih

theorem write_off (off : output.Off) : output.write = output.plain := by
  induction output with
  | text chars => rfl
  | outputWrapper inner impl impls ih => exact off.elim
  | conditionalOutputWrapper cond inner impl impls ih =>
    obtain ⟨rfl, off⟩ := off
    exact ih off

theorem shows_all (t : State) (ground : t.parser = .ground) : t.run (outputs.flatMap Output.write) =
    { t with
      screen := t.screen ++ Output.shownAll outputs t.attributes
      attributes := outputs.foldl (fun a output => output.leaves a) t.attributes } := by
  induction outputs generalizing t with
  | nil => simp [State.run, Output.shownAll]
  | cons output outputs ih =>
    have rest := ih { t with
      screen := t.screen ++ output.shown t.attributes
      attributes := output.leaves t.attributes } ground
    rw [List.flatMap_cons, State.run_append, shows_write t ground rfl, rest, Output.shownAll,
      List.append_assoc, List.foldl_cons]

theorem shown_all_chars : (Output.shownAll outputs a).map Prod.fst = outputs.flatMap Output.plain := by
  induction outputs generalizing a with
  | nil => rfl
  | cons output outputs ih => rw [Output.shownAll, List.map_append, shown_chars, ih, List.flatMap_cons]

/-- A terminal shows what the outputs mean, however wrappers are nested and whatever holds of their
conditions; the characters are those of the text alone, and where no wrapper applies nothing else is
written. -/
theorem outputs_shown (t : State) (ground : t.parser = .ground) (outputs : List Output) :
    t.run (outputs.flatMap Output.write) =
      { t with
        screen := t.screen ++ Output.shownAll outputs t.attributes
        attributes := outputs.foldl (fun a output => output.leaves a) t.attributes } ∧
    (Output.shownAll outputs t.attributes).map Prod.fst = outputs.flatMap Output.plain ∧
    ((∀ output ∈ outputs, output.Off) → outputs.flatMap Output.write = outputs.flatMap Output.plain) := by
  refine ⟨shows_all t ground, shown_all_chars, fun off => ?_⟩
  rw [List.flatMap_def, List.flatMap_def, List.map_congr_left fun output member => write_off (off output member)]

end

/-- Text in two wrappers, the inner one for tty output only. -/
def nested (tty : Bool) : Output :=
  .outputWrapper (.conditionalOutputWrapper tty (.text ⟨['x'], by decide⟩) ⟨.bold, by decide⟩ [])
    ⟨.underline, by decide⟩ []

theorem outputs_shown_nested : ((⟨Attribute.normal, .ground, []⟩ : State).run
    ([nested true, nested false].flatMap Output.write)).screen.map Prod.fst = ['x', 'x'] := by
  obtain ⟨shows, chars, -⟩ := outputs_shown ⟨Attribute.normal, .ground, []⟩ rfl [nested true, nested false]
  rw [shows]
  exact chars

end Celestite.TermColor
