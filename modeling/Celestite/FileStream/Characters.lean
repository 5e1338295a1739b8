import Celestite.FileStream.Interchange
import Celestite.Sequential.Lockstep
import Mathlib.Data.Option.Basic

/-!
# Single characters

`getc`, `ungetc` and `putc`. A character that is looked at and pushed back leaves no trace for the code
that reads on, and bytes that are put or got one by one are as if written or read at once.
-/

namespace Celestite.Stdio

theorem overwrite_overwrite {bytes data more : List UInt8} {place : ℕ} :
    overwrite (overwrite bytes place data) (place + data.length) more = overwrite bytes place (data ++ more) := by
  have front : (bytes.take place ++ List.replicate (place - bytes.length) 0 ++ data).length =
      place + data.length := by
    simp only [List.length_append, List.length_take, List.length_replicate]
    omega
  have inside : place + data.length ≤ (overwrite bytes place data).length := by
    rw [length_overwrite]
    exact le_max_right _ _
  rw [overwrite_inside inside]
  unfold overwrite
  generalize bytes.take place ++ List.replicate (place - bytes.length) 0 = before at front ⊢
  rw [← front, List.take_left, List.drop_append, front, List.drop_of_length_le (by omega), List.nil_append,
    List.drop_drop, List.length_append, List.append_assoc before, Nat.add_sub_cancel_left]
  congr 2
  omega

namespace File
variable {f f' : File} {n : ℕ}

/-- The files are the same to whoever reads on. -/
structure Alike (f f' : File) : Prop where
  name : f'.name = f.name
  mode : f'.mode = f.mode
  bytes : f'.bytes = f.bytes
  error : f'.error = f.error
  ahead : f'.ahead = f.ahead
  tell : f'.ftell = f.ftell

theorem Alike.rfl : Alike f f := ⟨Eq.refl _, Eq.refl _, Eq.refl _, Eq.refl _, Eq.refl _, Eq.refl _⟩

/-- Its position is known, and it may be read from. -/
structure Settled (f : File) : Prop where
  pushed : f.pushed.length ≤ f.pos
  may : f.MayRead

theorem length_taken : (f.ahead.take n).length = min n (f.pushed.length + (f.bytes.length - f.pos)) := by
  rw [List.length_take, ahead, List.length_append, List.length_drop]

theorem fread_eq (reads : f.mode.reads = true) : f.fread n = (f.ahead.take n,
    { f with
      pos := f.pos + ((f.ahead.take n).length - f.pushed.length)
      pushed := f.pushed.drop n
      last := if (f.ahead.take n).length < n then none else some .input }) := by
  rw [fread, if_pos reads]

theorem fread_ahead (reads : f.mode.reads = true) : (f.fread n).2.ahead = f.ahead.drop n := by
  have reached : f.bytes.drop (f.pos + ((f.ahead.take n).length - f.pushed.length)) =
      f.bytes.drop (f.pos + (n - f.pushed.length)) := by
    rw [length_taken]
    by_cases room : n - f.pushed.length ≤ f.bytes.length - f.pos
    · congr 1
      omega
    · rw [List.drop_of_length_le (by omega), List.drop_of_length_le (by omega)]
  rw [fread_eq reads]
  simp only [ahead] at reached ⊢
  rw [reached, List.drop_append, List.drop_drop]

theorem fread_tell (reads : f.mode.reads = true) (settled : f.Settled) :
    (f.fread n).2.ftell = f.ftell + (f.ahead.take n).length := by
  have pushed := settled.pushed
  rw [fread_eq reads, length_taken]
  simp only [ftell, List.length_drop]
  omega

theorem fread_settled (reads : f.mode.reads = true) (settled : f.Settled) : (f.fread n).2.Settled := by
  have pushed := settled.pushed
  rw [fread_eq reads]
  constructor
  · simp only [List.length_drop]
    omega
  · simp only [MayRead]
    split <;> simp

/-- Abreast from both gives the same, and leaves them alike. -/
theorem Alike.fread (alike : Alike f f') (reads : f.mode.reads = true) (settled : f.Settled)
    (settled' : f'.Settled) (n : ℕ) :
    (f'.fread n).1 = (f.fread n).1 ∧ Alike (f.fread n).2 (f'.fread n).2 := by
  have reads' : f'.mode.reads = true := alike.mode.symm ▸ reads
  have same : (f'.fread n).1 = (f.fread n).1 := by
    rw [fread_eq reads, fread_eq reads', alike.ahead]
  refine ⟨same, ?_, ?_, ?_, ?_, ?_, ?_⟩
  · rw [fread_eq reads, fread_eq reads', alike.name]
  · rw [fread_eq reads, fread_eq reads', alike.mode]
  · rw [fread_eq reads, fread_eq reads', alike.bytes]
  · rw [fread_eq reads, fread_eq reads', alike.error]
  · rw [fread_ahead reads, fread_ahead reads', alike.ahead]
  · rw [fread_tell reads settled, fread_tell reads' settled', alike.tell, alike.ahead]

theorem fread_fread {m : ℕ} (reads : f.mode.reads = true) (some_ : 0 < n) :
    (f.fread m).2.fread n = ((f.ahead.drop m).take n, (f.fread (m + n)).2) := by
  have mode : (f.fread m).2.mode.reads = true := by rwa [fread_eq reads]
  have both := @length_taken f (m + n)
  have first := @length_taken f m
  have second : ((f.ahead.drop m).take n).length = min n ((f.pushed ++ f.bytes.drop f.pos).length - m) := by
    rw [List.length_take, List.length_drop, ahead]
  rw [List.length_append, List.length_drop] at second
  rw [fread_eq mode, fread_ahead reads, fread_eq reads, fread_eq reads]
  simp only [Prod.mk.injEq, true_and, mk.injEq, List.drop_drop, List.length_drop]
  refine ⟨by omega, ?_⟩
  by_cases short : ((f.ahead.drop m).take n).length < n
  · rw [if_pos short, if_pos (by omega)]
    exact ⟨rfl, trivial⟩
  · rw [if_neg short, if_neg (by omega)]
    exact ⟨rfl, trivial⟩

theorem fwrite_fwrite (writes : f.mode.writes = true) (data more : List UInt8) :
    (f.fwrite data).2.fwrite more = f.fwrite (data ++ more) := by
  have mode : (f.fwrite data).2.mode = f.mode := by rw [fwrite, if_pos writes]
  cases appends : f.mode.appends with
  | false =>
    rw [fwrite_places (mode ▸ writes) (mode ▸ appends), fwrite_places writes appends, fwrite_places writes appends,
      overwrite_overwrite, List.length_append, add_assoc]
  | true =>
    rw [fwrite_appends (mode ▸ writes) (mode ▸ appends), fwrite_appends writes appends,
      fwrite_appends writes appends, List.append_assoc, List.length_append, List.length_append, add_assoc]

/-- After `fseek` there is no difference any more. -/
theorem Alike.fseek (alike : Alike f f') (offset : ℤ) (whence : Whence) :
    f'.fseek offset whence = f.fseek offset whence := by
  have base : f'.base whence = f.base whence := by
    cases whence <;> simp [File.base, alike.tell, alike.bytes]
  obtain ⟨name, mode, bytes, pos, pushed, last, error⟩ := f
  obtain ⟨name', mode', bytes', pos', pushed', last', error'⟩ := f'
  obtain ⟨rfl, rfl, rfl, rfl, -, -⟩ := alike
  simp only [File.fseek, base]

end File
end Celestite.Stdio

namespace Celestite

/-- The code writes nothing before its first seek. -/
def Client.ReadsFirst {α : Type} : Client α → Prop
  | done _ => True
  | read _ next => ∀ data, (next data).ReadsFirst
  | write data next => data = [] ∧ next.ReadsFirst
  | seek _ _ _ => True
  | tell next => ∀ place, (next place).ReadsFirst

namespace BinaryFileStream
open Stdio (File Direction)

/-- The streams are the same to whoever reads on. -/
def Alike (b b' : BinaryFileStream File) : Prop := b'.fileSize = b.fileSize ∧ Option.Rel File.Alike b.fp b'.fp

/-- As yet no seek has made them equal. -/
def Abreast (b b' : BinaryFileStream File) : Prop := b'.fileSize = b.fileSize ∧ ∃ f f',
  b.fp = some f ∧ b'.fp = some f' ∧ f.Alike f' ∧ f.mode.reads = true ∧ f.Settled ∧ f'.Settled

section
variable {α : Type} {b b' : BinaryFileStream File} {f f' : File} {n : ℕ}

theorem Alike.rfl : Alike b b := by
  refine ⟨Eq.refl _, ?_⟩
  cases b.fp with
  | none => exact .none
  | some f => exact .some .rfl

theorem Abreast.alike (abreast : Abreast b b') : Alike b b' := by
  obtain ⟨size, f, f', held, held', alike, -⟩ := abreast
  refine ⟨size, ?_⟩
  rw [held, held']
  exact .some alike

theorem read_alike (abreast : Abreast b b') (n : ℕ) : Outcome.Related Abreast (read n b) (read n b') := by
  have here := abreast
  obtain ⟨size, f, f', held, held', alike, reads, settled, settled'⟩ := abreast
  rcases eq_or_ne n 0 with rfl | some_
  · rw [read_zero held, read_zero held']
    exact .ok here
  · have reads' : f'.mode.reads = true := alike.mode.symm ▸ reads
    obtain ⟨same, later⟩ := alike.fread reads settled settled' n
    have mode : (f.fread n).2.mode.reads = true := by rwa [File.fread_eq reads]
    have next : Abreast { b with fp := some (f.fread n).2 } { b' with fp := some (f'.fread n).2 } :=
      ⟨size, _, _, rfl, rfl, later, mode, File.fread_settled reads settled, File.fread_settled reads' settled'⟩
    rw [read_pos held some_ settled.may, read_pos held' some_ settled'.may, same]
    split
    · exact .ok next
    · exact .threw next

theorem tell_alike (abreast : Abreast b b') : Outcome.Related Abreast (tell b) (tell b') := by
  have here := abreast
  obtain ⟨-, f, f', held, held', alike, -, settled, settled'⟩ := abreast
  rw [tell, Program.bind_ok (file_run held), Program.bind_ok (Program.require_run settled.pushed),
    Program.bind_ok (file_run held'), Program.bind_ok (Program.require_run settled'.pushed), alike.tell]
  exact .ok here

theorem seek_alike (abreast : Abreast b b') (offset : ℤ) (origin : SeekFrom) :
    (∃ b'', seek offset origin b = .ok () b'' ∧ seek offset origin b' = .ok () b'') ∨
    seek offset origin b = .threw .seek b ∧ seek offset origin b' = .threw .seek b' := by
  obtain ⟨size, f, f', held, held', alike, -⟩ := abreast
  have same := alike.fseek offset (whence origin)
  rw [seek, Program.bind_ok (file_run held), Program.bind_ok (file_run held'), same]
  cases f.fseek offset (whence origin) with
  | some after =>
    have streams : { b' with fp := some after } = { b with fp := some after } := by rw [size]
    exact .inl ⟨_, rfl, congrArg (Outcome.ok ()) streams⟩
  | none => exact .inr ⟨rfl, rfl⟩

theorem alike_run (client : Client α) (abreast : Abreast b b') (first : client.ReadsFirst) :
    Outcome.Related Alike (client.runOn derived b) (client.runOn derived b') := by
  induction client generalizing b b' with
  | done a => exact .ok abreast.alike
  | read n next ih =>
    rw [Client.runOn, derived_read]
    exact (read_alike abreast n).bind (fun _ _ => Abreast.alike) fun data _ _ later => ih data later (first data)
  | write data next ih =>
    obtain ⟨rfl, later⟩ := first
    have here := abreast
    obtain ⟨-, f, f', held, held', -⟩ := abreast
    rw [Client.runOn, derived_write, Program.bind_ok (write_nil held), Program.bind_ok (write_nil held')]
    exact ih here later
  | seek offset origin next =>
    rw [Client.runOn, derived_seek]
    rcases seek_alike abreast offset origin with ⟨after, run, run'⟩ | ⟨run, run'⟩
    · rw [Program.bind_ok run, Program.bind_ok run']
      exact .refl (fun _ => .rfl) _
    · rw [Program.bind_threw run, Program.bind_threw run']
      exact .threw abreast.alike
  | tell next ih =>
    rw [Client.runOn, derived_tell]
    exact (tell_alike abreast).bind (fun _ _ => Abreast.alike) fun place _ _ later => ih place later (first place)

/-- Looking at the next character, which stays the next. -/
def peek : Op (Option UInt8) := do
  let ch ← getc
  ungetc ch

theorem getc_run (held : b.fp = some f) (may : f.MayRead) (reads : f.mode.reads = true) (quiet : f.error = false) :
    getc b = .ok f.ahead.head? { b with fp := some (f.fread 1).2 } := by
  have fine : ¬((f.fread 1).1 = [] ∧ (f.fread 1).2.error = true) := by simp [File.fread_eq reads, quiet]
  have head : (f.fread 1).1.head? = f.ahead.head? := by
    rw [File.fread_eq reads]
    cases f.ahead <;> rfl
  rw [getc, Program.bind_ok (file_run held), Program.bind_ok (Program.require_run may), keep,
    Program.bind_ok (Program.update_run _ b), if_neg fine, Program.pure_run, head]

theorem ungetc_run {byte : UInt8} (held : b.fp = some f) (clean : f.pushed = []) :
    ungetc (some byte) b = .ok (some byte) { b with fp := some (f.ungetc byte) } := by
  rw [ungetc, Program.bind_ok (file_run held)]
  exact (Program.bind_ok (Program.require_run clean)).trans (Program.bind_ok (Program.update_run _ b))

theorem peek_abreast (held : b.fp = some f) (settled : f.Settled) (reads : f.mode.reads = true)
    (quiet : f.error = false) (single : f.pushed.length ≤ 1) :
    ∃ b', peek b = .ok f.ahead.head? b' ∧ Abreast b b' := by
  have got := getc_run held settled.may reads quiet
  have settled' := @File.fread_settled f 1 reads settled
  have tell := @File.fread_tell f 1 reads settled
  have rest := @File.fread_ahead f 1 reads
  have clean : (f.fread 1).2.pushed = [] := by
    rw [File.fread_eq reads]
    exact List.drop_of_length_le single
  have name : (f.fread 1).2.name = f.name := by rw [File.fread_eq reads]
  have mode : (f.fread 1).2.mode = f.mode := by rw [File.fread_eq reads]
  have bytes : (f.fread 1).2.bytes = f.bytes := by rw [File.fread_eq reads]
  have error : (f.fread 1).2.error = f.error := by rw [File.fread_eq reads]
  rw [peek, Program.bind_ok got]
  generalize (f.fread 1).2 = g at *
  cases next : f.ahead with
  | nil =>
    rw [next] at rest tell
    refine ⟨_, Program.bind_ok (file_run rfl), rfl, f, g, held, rfl, ⟨name, mode, bytes, error, ?_, tell⟩,
      reads, settled, settled'⟩
    rw [next, rest, List.drop_nil]
  | cons byte more =>
    rw [next] at rest tell
    have moved : g.pos = f.ftell + 1 := by simpa [File.ftell, clean] using tell
    refine ⟨_, ungetc_run rfl clean, rfl, f, g.ungetc byte, held, rfl, ⟨name, mode, bytes, error, ?_, ?_⟩,
      reads, settled, ?_, ?_⟩
    · rw [next]
      exact congrArg (byte :: ·) rest
    · rw [File.ftell, File.ungetc, clean, List.length_singleton, moved, Nat.add_sub_cancel]
    · rw [File.ungetc, clean, List.length_singleton, moved]
      exact Nat.le_add_left 1 _
    · simp [File.MayRead, File.ungetc]

/-- Who looks at the next character and then does what he would have done anyway gets the same results,
whatever that is, unless it is to write without a seek. -/
theorem peek_unseen (client : Client α) (held : b.fp = some f) (settled : f.Settled)
    (reads : f.mode.reads = true) (quiet : f.error = false) (single : f.pushed.length ≤ 1)
    (first : client.ReadsFirst) :
    ∃ b', peek b = .ok f.ahead.head? b' ∧
      Outcome.Related Alike (client.runOn derived b) (client.runOn derived b') := by
  obtain ⟨b', run, abreast⟩ := peek_abreast held settled reads quiet single
  exact ⟨b', run, alike_run client abreast first⟩

end

/-- A file of two bytes, opened for update, of which one has been read. -/
def readOnce : File := { name := "a", mode := ⟨.read, true⟩, bytes := [1, 2], pos := 1, last := some .input }

theorem readOnce_settled : readOnce.Settled := ⟨by decide, by decide⟩

def oneRead : BinaryFileStream File := { fp := some readOnce }

/-- The rest is read, then overwritten. -/
def readsOn : Client (List UInt8) :=
  .read 1 fun data => .tell fun place => .seek (-place) .current (.write [7] (.done data))

theorem peek_unseen_readsOn : ∃ b', peek oneRead = .ok (some 2) b' ∧
    Outcome.Related Alike (readsOn.runOn derived oneRead) (readsOn.runOn derived b') :=
  peek_unseen readsOn rfl readOnce_settled rfl rfl (Nat.zero_le _) fun _ _ => trivial

section
variable {b : BinaryFileStream File} {f : File} {n : ℕ}

def getcs : ℕ → Op (List (Option UInt8))
  | 0 => pure []
  | n + 1 => do
    let ch ← getc
    let chs ← getcs n
    pure (ch :: chs)

def putcs : List UInt8 → Op Unit
  | [] => pure ()
  | ch :: chs => do
    putc ch
    putcs chs

theorem getcs_run (held : b.fp = some f) (settled : f.Settled) (reads : f.mode.reads = true)
    (quiet : f.error = false) :
    getcs (n + 1) b = .ok ((f.ahead.take (n + 1)).map some ++ List.replicate (n + 1 - f.ahead.length) none)
      { b with fp := some (f.fread (n + 1)).2 } := by
  induction n generalizing b f with
  | zero =>
    rw [getcs, Program.bind_ok (getc_run held settled.may reads quiet), getcs]
    cases f.ahead <;> simp
  | succ n ih =>
    have mode : (f.fread 1).2.mode.reads = true := by rwa [File.fread_eq reads]
    have error : (f.fread 1).2.error = false := by rwa [File.fread_eq reads]
    have rest := @File.fread_ahead f 1 reads
    have others := ih (b := { b with fp := some (f.fread 1).2 }) rfl (File.fread_settled reads settled) mode error
    rw [rest, File.fread_fread reads (Nat.succ_pos n), Nat.add_comm 1] at others
    rw [getcs, Program.bind_ok (getc_run held settled.may reads quiet), Program.bind_ok others, Program.pure_run]
    cases f.ahead <;> simp [List.replicate_succ]

theorem putc_run {ch : UInt8} (held : b.fp = some f) (writes : f.mode.writes = true) (may : f.MayWrite) :
    putc ch b = .ok () { b with fp := some (f.fwrite [ch]).2 } := by
  have done : (f.fwrite [ch]).1 = true := by rw [File.fwrite, if_pos writes]
  rw [putc, Program.bind_ok (file_run held), Program.bind_ok (Program.require_run may), keep,
    Program.bind_ok (Program.update_run _ b), if_pos done, Program.pure_run]

theorem putcs_run (held : b.fp = some f) (writes : f.mode.writes = true) (may : f.MayWrite) (data : List UInt8) :
    putcs data b = write data b := by
  induction data generalizing b f with
  | nil => rw [write_nil held, putcs, Program.pure_run]
  | cons ch chs ih =>
    have mode : (f.fwrite [ch]).2.mode.writes = true := by rwa [File.fwrite, if_pos writes]
    have may' : (f.fwrite [ch]).2.MayWrite := by
      rw [File.fwrite, if_pos writes]
      simp [File.MayWrite]
    rw [putcs, Program.bind_ok (putc_run held writes may), ih rfl mode may',
      write_cons held (List.cons_ne_nil ch chs) may writes]
    rcases eq_or_ne chs [] with rfl | some_
    · rw [write_nil rfl]
    · rw [write_cons rfl some_ may' mode, File.fwrite_fwrite writes, List.singleton_append]

/-- Characters that are put one by one are as if written at once. Those that are got one by one are what
`read` delivers, with `EOF` where it throws, and leave the stream as it does. -/
theorem one_by_one (held : b.fp = some f) :
    (f.mode.writes = true → f.MayWrite → ∀ data, putcs data b = write data b) ∧
    (f.mode.reads = true → f.Settled → f.error = false → ∀ n, ∃ b',
      getcs n b = .ok ((f.ahead.take n).map some ++ List.replicate (n - f.ahead.length) none) b' ∧
      read n b = if n ≤ f.ahead.length then .ok (f.ahead.take n) b' else .threw .read b') := by
  refine ⟨fun writes may => putcs_run held writes may, ?_⟩
  intro reads settled quiet n
  cases n with
  | zero =>
    refine ⟨b, ?_, ?_⟩
    · simp [getcs]
    · rw [read_zero held, if_pos (Nat.zero_le _), List.take_zero]
  | succ n =>
    refine ⟨_, getcs_run held settled reads quiet, ?_⟩
    rw [read_pos held (Nat.succ_ne_zero n) settled.may, File.fread_eq reads, List.length_take]
    by_cases room : n + 1 ≤ f.ahead.length
    · rw [if_pos room, if_pos (Nat.min_eq_left room)]
    · rw [if_neg room, if_neg (by omega)]

end

theorem one_by_one_oneRead : ∃ b', getcs 2 oneRead = .ok [some 2, none] b' ∧ read 2 oneRead = .threw .read b' :=
  (one_by_one rfl).2 rfl readOnce_settled rfl 2

end BinaryFileStream
end Celestite
