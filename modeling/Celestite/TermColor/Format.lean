import Celestite.TermColor.Shown

/-!
# Styles in `std::format`

The formatters write through an output iterator, and have to leave it to the formatter of what is
inside. The format specification is for the text alone.
-/

namespace Celestite.TermColor

/-- What has been written, and the iterator that `out` returns. -/
structure FormatContext where
  buffer : List Char
  out : ℕ

/-- `*it++ = c` for each of the characters. -/
def emit : List Char → List Char × ℕ → List Char × ℕ
  | [], s => s
  | c :: cs, (buffer, it) => emit cs (buffer.take it ++ c :: buffer.drop (it + 1), it + 1)

/-- `formatter::format`, with the iterator that it returns; `spec` is what the formatter of text makes of
a text by its specification. -/
def Output.format (spec : PlainText → PlainText) : Output → FormatContext → FormatContext × ℕ
  | text chars, ctx =>
    let (buffer, it) := emit (spec chars).val (ctx.buffer, ctx.out)
    ({ ctx with buffer }, it)
  | outputWrapper inner impl impls, ctx =>
    let (buffer, it) := emit (seq impl (impls.map Subtype.val)) (ctx.buffer, ctx.out)
    let (ctx, it) := inner.format spec { buffer, out := it }
    let (buffer, it) := emit (reset impl impls) (ctx.buffer, it)
    ({ ctx with buffer }, it)
  | conditionalOutputWrapper cond inner impl impls, ctx =>
    if cond then
      let (buffer, it) := emit (seq impl (impls.map Subtype.val)) (ctx.buffer, ctx.out)
      let (ctx, it) := inner.format spec { buffer, out := it }
      let (buffer, it) := emit (reset impl impls) (ctx.buffer, it)
      ({ ctx with buffer }, it)
    else inner.format spec ctx

/-- One argument after the other. -/
def formatAll (spec : PlainText → PlainText) (outputs : List Output) (ctx : FormatContext) : FormatContext :=
  outputs.foldl (fun ctx output =>
    let (ctx, it) := output.format spec ctx
    { ctx with out := it }) ctx

def Output.mapText (f : PlainText → PlainText) : Output → Output
  | .text chars => .text (f chars)
  | outputWrapper inner impl impls => outputWrapper (inner.mapText f) impl impls
  | conditionalOutputWrapper cond inner impl impls => conditionalOutputWrapper cond (inner.mapText f) impl impls

section
variable {spec : PlainText → PlainText} {output : Output} {outputs : List Output} {ctx : FormatContext}
  {cs buffer : List Char}

theorem emit_end : emit cs (buffer, buffer.length) = (buffer ++ cs, (buffer ++ cs).length) := by
  induction cs generalizing buffer with
  | nil => simp [emit]
  | cons c cs ih =>
    have put : buffer.take buffer.length ++ c :: buffer.drop (buffer.length + 1) = buffer ++ [c] := by
      rw [List.take_length, List.drop_of_length_le (Nat.le_succ _)]
    have length : buffer.length + 1 = (buffer ++ [c]).length := by simp
    rw [emit, put, length, ih, List.append_assoc]
    rfl

/-- The iterator is at the end of what was written by then, in the context or not. -/
theorem format_end (there : ctx.out = ctx.buffer.length) :
    (output.format spec ctx).1.buffer = ctx.buffer ++ (output.mapText spec).write ∧
      (output.format spec ctx).2 = (output.format spec ctx).1.buffer.length := by
  have wrapped : ∀ {inner : Output} {impl : Resettable} {impls : List Resettable} {ctx : FormatContext},
      (∀ {ctx : FormatContext}, ctx.out = ctx.buffer.length →
        (inner.format spec ctx).1.buffer = ctx.buffer ++ (inner.mapText spec).write ∧
        (inner.format spec ctx).2 = (inner.format spec ctx).1.buffer.length) →
      ctx.out = ctx.buffer.length →
      ((Output.outputWrapper inner impl impls).format spec ctx).1.buffer =
        ctx.buffer ++ (seq impl (impls.map Subtype.val) ++ (inner.mapText spec).write ++ reset impl impls) ∧
      ((Output.outputWrapper inner impl impls).format spec ctx).2 =
        ((Output.outputWrapper inner impl impls).format spec ctx).1.buffer.length := by
    intro inner impl impls ctx ih there
    obtain ⟨written, last⟩ := @ih ⟨ctx.buffer ++ seq impl (impls.map Subtype.val),
      (ctx.buffer ++ seq impl (impls.map Subtype.val)).length⟩ rfl
    simp only [Output.format, there, emit_end, last]
    rw [written]
    simp only [List.append_assoc, and_self]
  induction output generalizing ctx with
  | text chars =>
    simp only [Output.format, there, emit_end, and_true]
    rfl
  | outputWrapper inner impl impls ih => exact wrapped ih there
  | conditionalOutputWrapper cond inner impl impls ih =>
    cases cond with
    | true => exact wrapped ih there
    | false => exact ih there

/-- Formatting any outputs writes what `operator<<` does, with the specification applied to the text
and not to the sequences. -/
theorem format_writes (spec : PlainText → PlainText) (outputs : List Output)
    (there : ctx.out = ctx.buffer.length) :
    (formatAll spec outputs ctx).buffer =
        ctx.buffer ++ (outputs.map (Output.mapText spec)).flatMap Output.write ∧
      (formatAll spec outputs ctx).out = (formatAll spec outputs ctx).buffer.length := by
  induction outputs generalizing ctx with
  | nil => simpa [formatAll] using there
  | cons output outputs ih =>
    obtain ⟨written, last⟩ := @format_end spec output ctx there
    obtain ⟨rest, out⟩ := @ih ⟨(output.format spec ctx).1.buffer, (output.format spec ctx).2⟩ last
    refine ⟨?_, out⟩
    rw [List.map_cons, List.flatMap_cons, ← List.append_assoc, ← written]
    exact rest

end

def padded (chars : PlainText) : PlainText := ⟨' ' :: chars.val, by simp [chars.property]⟩

/-- The text in the wrappers is padded on the left. -/
theorem format_writes_nested : (formatAll padded [nested false] ⟨['>'], 1⟩).buffer =
    ['>'] ++ (Output.outputWrapper (.text ⟨[' ', 'x'], by decide⟩) ⟨.underline, by decide⟩ []).write :=
  (@format_writes ⟨['>'], 1⟩ padded [nested false] rfl).1.trans
    (congrArg _ (List.append_nil _))

end Celestite.TermColor
