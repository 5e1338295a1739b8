import Celestite.Terminal.Sgr
import Celestite.TermColor.Model

/-!
# Sequences are decodable

The styles of a sequence are read back from its parameters, so no two lists of styles have one sequence.
-/

namespace Celestite.TermColor
open Celestite.Sequential Celestite.Terminal

/-- The parameters that stand alone. -/
def singles : List (ℕ × Style) :=
  [(0, .reset), (1, .bold), (2, .dim), (3, .italic), (4, .underline), (5, .blinking), (7, .inverse), (8, .hidden),
    (9, .strikethrough), (30, .colorFg .black), (31, .colorFg .red), (32, .colorFg .green), (33, .colorFg .yellow),
    (34, .colorFg .blue), (35, .colorFg .magenta), (36, .colorFg .cyan), (37, .colorFg .white),
    (39, .colorFg .default), (40, .colorBg .black), (41, .colorBg .red), (42, .colorBg .green),
    (43, .colorBg .yellow), (44, .colorBg .blue), (45, .colorBg .magenta), (46, .colorBg .cyan),
    (47, .colorBg .white), (49, .colorBg .default)]

def style : Command → Option Style
  | .single n => singles.lookup n
  | .indexed .fg id => some (.fg256 id)
  | .indexed .bg id => some (.bg256 id)
  | .rgb .fg r g b => some (.rgbFg r g b)
  | .rgb .bg r g b => some (.rgbBg r g b)

/-- The styles of a whole sequence. -/
def parse (fs : FixedString) : Option (List Style) := (read fs).bind fun list => list.mapM style

def Style.command : Style → Command
  | reset => .single 0
  | colorFg color => .single (getColorCode color).fg
  | colorBg color => .single (getColorCode color).bg
  | fg256 id => .indexed .fg id
  | bg256 id => .indexed .bg id
  | rgbFg r g b => .rgb .fg r g b
  | rgbBg r g b => .rgb .bg r g b
  | bold => .single 1
  | dim => .single 2
  | italic => .single 3
  | underline => .single 4
  | blinking => .single 5
  | inverse => .single 7
  | hidden => .single 8
  | strikethrough => .single 9

/-- Parameters as they are written. -/
def body (params : List ℕ) : List Char := [';'].intercalate (params.map digits)

variable {impl : Style} {impls : List Style} {params more : List ℕ} {n m : ℕ}

theorem style_command : style impl.command = some impl := by
  cases impl with
  | colorFg color => cases color <;> rfl
  | colorBg color => cases color <;> rfl
  | _ => rfl

theorem command_plain : impl.command.Plain := by
  cases impl with
  | colorFg color => cases color <;> simp [Command.Plain, Style.command, getColorCode]
  | colorBg color => cases color <;> simp [Command.Plain, Style.command, getColorCode]
  | _ => simp [Command.Plain, Style.command]

@[simp] theorem body_singleton : body [n] = digits n := by simp [body]

@[simp] theorem body_cons_cons : body (n :: m :: params) = digits n ++ ';' :: body (m :: params) := by simp [body]

theorem decode_body (ne : params ≠ []) : decode (body params) = commands params := by
  rw [body, decode_intercalate (by simpa using ne), List.map_map]
  · congr
    exact List.map_id'' (fun num => digits_spec.2) params
  · exact List.forall_mem_map.mpr fun num _ => digits_spec.1.digits

theorem body_append (ne : params ≠ []) (ne' : more ≠ []) : body (params ++ more) = body params ++ ';' :: body more := by
  rw [body, List.map_append, intercalate_append (by simpa using ne) (by simpa using ne')]
  rfl

/-- A pack whose members are written from parameters. -/
theorem join_body {α : Type} {code : α → FixedString} {written : α → List ℕ} {a : α} {as : List α}
    (eq : ∀ a, code a = body (written a)) (ne : ∀ a, written a ≠ []) :
    join ';' (code a) (as.map code) = body ((a :: as).flatMap written) := by
  induction as generalizing a with
  | nil => simp [join, eq]
  | cons next as ih =>
    have more : (next :: as).flatMap written ≠ [] := by simp [ne]
    calc join ';' (code a) ((next :: as).map code)
      _ = push (code a) ';' ++ body ((next :: as).flatMap written) := by rw [List.map_cons, join, ih]
      _ = body (written a) ++ ';' :: body ((next :: as).flatMap written) := by simp [push, eq]
      _ = body ((a :: next :: as).flatMap written) := (body_append (ne a) more).symm

theorem code_eq : impl.code = body impl.command.params := by
  have foreground : digits 38 = ['3', '8'] := digits_two (by decide) (by decide)
  have background : digits 48 = ['4', '8'] := digits_two (by decide) (by decide)
  have five : digits 5 = ['5'] := digits_one (by decide)
  have two : digits 2 = ['2'] := digits_one (by decide)
  cases impl with
  | fg256 id =>
    show mkfs "38;5;" ++ digits id = body [38, 5, id]
    simp [mkfs, foreground, five]
  | bg256 id =>
    show mkfs "48;5;" ++ digits id = body [48, 5, id]
    simp [mkfs, background, five]
  | rgbFg r g b =>
    show mkfs "38;2;" ++ join ';' (digits r) [digits g, digits b] = body [38, 2, r, g, b]
    simp [mkfs, foreground, two, join, push]
  | rgbBg r g b =>
    show mkfs "48;2;" ++ join ';' (digits r) [digits g, digits b] = body [48, 2, r, g, b]
    simp [mkfs, background, two, join, push]
  | _ => exact body_singleton.symm

theorem params_ne_nil : impl.command.params ≠ [] := by
  cases impl.command <;> simp [Command.params]

/-- Every sequence is a rendition with the parameters of its styles. -/
theorem seq_eq : seq impl impls = rendition (body ((impl :: impls).flatMap fun impl => impl.command.params)) := by
  rw [seq, join_body (fun impl => @code_eq impl) fun impl => @params_ne_nil impl]
  rfl

theorem decode_seq : decode (body ((impl :: impls).flatMap fun impl => impl.command.params)) =
    some ((impl :: impls).map Style.command) := by
  rw [decode_body (by simp [params_ne_nil]), ← List.flatMap_map]
  apply commands_flatMap
  exact List.forall_mem_map.mpr fun impl _ => command_plain

theorem mapM_style : (impls.map Style.command).mapM style = some impls := by
  induction impls with
  | nil => rfl
  | cons impl impls ih =>
    rw [List.map_cons, List.mapM_cons, style_command, ih]
    rfl

theorem parse_seq : parse (seq impl impls) = some (impl :: impls) := by
  rw [parse, seq_eq, read_rendition, decode_seq]
  exact mapM_style

theorem body_chars : ∀ c ∈ body params, c.isDigit = true ∨ c = ';' := by
  intro c mem
  rcases mem_intercalate mem with rfl | ⟨text, mem, char⟩
  · exact .inr rfl
  · obtain ⟨num, -, rfl⟩ := List.mem_map.mp mem
    exact .inl (digits_spec.1.digits c char)

theorem body_parameters (ne : params ≠ []) : ∀ param ∈ (body params).splitOn ';', Decimal.Canonical param := by
  have written : ∀ param ∈ params.map digits, Decimal.Canonical param :=
    List.forall_mem_map.mpr fun num _ => digits_spec.1
  rw [body, splitOn_digits (by simpa using ne) fun param mem => (written param mem).digits]
  exact written

/-- The sequence of a list of styles has decimal parameters only and is read back as this list. -/
theorem styles_decodable :
    (∀ impl impls, (∃ body, seq impl impls = '\x1b' :: '[' :: (body ++ ['m']) ∧
      (∀ c ∈ body, c.isDigit = true ∨ c = ';') ∧ ∀ param ∈ body.splitOn ';', Decimal.Canonical param) ∧
      parse (seq impl impls) = some (impl :: impls)) ∧
    ∀ impl impls impl' impls', seq impl impls = seq impl' impls' → impl :: impls = impl' :: impls' := by
  constructor
  · intro impl impls
    refine ⟨⟨_, seq_eq, body_chars, body_parameters ?_⟩, parse_seq⟩
    simp [params_ne_nil]
  · intro impl impls impl' impls' same
    have parsed := @parse_seq impl impls
    rw [same, parse_seq] at parsed
    exact (Option.some.inj parsed).symm

theorem styles_decodable_mixed : parse (seq .blinking [.fg256 5, .dim, .rgbBg 2 5 48]) =
    some [.blinking, .fg256 5, .dim, .rgbBg 2 5 48] :=
  (styles_decodable.1 .blinking [.fg256 5, .dim, .rgbBg 2 5 48]).2

end Celestite.TermColor
