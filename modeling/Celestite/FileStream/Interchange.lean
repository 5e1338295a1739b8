import Celestite.FileStream.Contents
import Celestite.Stream.Client

/-!
# A file stream in the place of a memory cursor

Over the same bytes both give the same results as long as the cursor throws nothing, and a read that
throws for the cursor throws for the file, which is then at its end.
-/

namespace Celestite

/-- The calls suit the mode, and none turns from input to output or back without a seek. Writes in the
append modes are left out, since they go to the end of the file and not to the position. -/
def Client.Proper {α : Type} (mode : Stdio.Mode) : Option Stdio.Direction → Client α → Prop
  | _, done _ => True
  | last, read _ next =>
    mode.reads = true ∧ last ≠ some .output ∧ ∀ data, (next data).Proper mode (some .input)
  | last, write _ next =>
    (mode.writes = true ∧ mode.appends = false) ∧ last ≠ some .input ∧ next.Proper mode (some .output)
  | _, seek offset _ next => IsOffset offset ∧ next.Proper mode none
  | last, tell next => ∀ place, IsOffset place → (next place).Proper mode last

namespace BinaryFileStream
open Stdio (File Direction)

def derived : Derived (BinaryFileStream File) IoError Misuse where
  read := read
  write := write
  seek := seek
  tell := tell

theorem derived_read : derived.read = read := by rw [derived]

theorem derived_write : derived.write = write := by rw [derived]

theorem derived_seek : derived.seek = seek := by rw [derived]

theorem derived_tell : derived.tell = tell := by rw [derived]

/-- The file has the bytes and the position of the cursor. -/
structure Mirrors (c : Cursor) (f : File) : Prop where
  valid : c.Valid
  bytes : f.bytes = c.bytes
  pos : (f.pos : ℤ) = c.pos
  clean : f.pushed = []

section
variable {c : Cursor} {b : BinaryFileStream File} {f : File} {n : ℕ} {data : List UInt8}

theorem Mirrors.place (mirrors : Mirrors c f) : c.pos.toNat = f.pos := by
  have pos := mirrors.pos
  omega

theorem Mirrors.length (mirrors : Mirrors c f) : (f.bytes.length : ℤ) = c.len := by
  rw [mirrors.bytes, Cursor.len]

theorem Mirrors.rest (mirrors : Mirrors c f) : f.bytes.drop f.pos = c.rest := by
  rw [Cursor.rest, mirrors.place, mirrors.bytes]

/-- What the operation leaves of the file: its mode, and as the last operation this one if any. -/
def Leaves (f f' : File) (last : Option Direction) : Prop :=
  f'.mode = f.mode ∧ (f'.last = f.last ∨ f'.last = last)

theorem read_mirrored (held : b.fp = some f) (mirrors : Mirrors c f) (reads : f.mode.reads = true)
    (may : f.MayRead) (room : c.pos + n ≤ c.len) :
    ∃ f', read n b = .ok (c.rest.take n) { b with fp := some f' } ∧
      Mirrors { c with pos := c.pos + n } f' ∧ Leaves f f' (some .input) := by
  rcases Nat.eq_zero_or_pos n with rfl | some_
  · refine ⟨f, ?_, ?_, rfl, .inl rfl⟩
    · rw [read_zero held, List.take_zero, ← held]
    · rw [Nat.cast_zero, add_zero]
      exact mirrors
  · have length := mirrors.length
    have pos := mirrors.pos
    have fits := @File.fread_fits n f reads mirrors.clean (by omega)
    have taken : ((f.bytes.drop f.pos).take n).length = n := by
      rw [mirrors.rest]
      exact Cursor.length_take_rest mirrors.valid room
    refine ⟨{ f with pos := f.pos + n, last := some .input }, ?_,
      ⟨mirrors.valid.moved room, mirrors.bytes, ?_, mirrors.clean⟩, rfl, .inr rfl⟩
    · rw [read_pos held (by omega) may, fits, if_pos taken, mirrors.rest]
    · push_cast
      rw [pos]

theorem read_drained (held : b.fp = some f) (mirrors : Mirrors c f) (reads : f.mode.reads = true)
    (may : f.MayRead) (full : c.len < c.pos + n) :
    ∃ f', read n b = .threw .read { b with fp := some f' } ∧ f'.bytes = c.bytes ∧
      f'.pos = c.bytes.length := by
  have length := mirrors.length
  have pos := mirrors.pos
  have le_len := mirrors.valid.le_len
  have short := @File.fread_short n f reads mirrors.clean (by omega) (by omega)
  have fewer : ¬(f.bytes.drop f.pos).length = n := by
    rw [List.length_drop]
    omega
  refine ⟨{ f with pos := f.bytes.length, last := none }, ?_, mirrors.bytes,
    congrArg List.length mirrors.bytes⟩
  rw [read_pos held (by omega) may, short, if_neg fewer]

theorem write_mirrored (held : b.fp = some f) (mirrors : Mirrors c f) (writes : f.mode.writes = true)
    (places : f.mode.appends = false) (may : f.MayWrite) (room : c.pos + data.length ≤ c.len) :
    ∃ f', write data b = .ok () { b with fp := some f' } ∧
      Mirrors ⟨c.spliced data, c.pos + data.length⟩ f' ∧ Leaves f f' (some .output) := by
  rcases eq_or_ne data [] with rfl | some_
  · refine ⟨f, ?_, ?_, rfl, .inl rfl⟩
    · rw [write_nil held, ← held]
    · have same : Cursor.mk (c.spliced []) (c.pos + ([] : List UInt8).length) = c := by
        simp [Cursor.spliced]
      rw [same]
      exact mirrors
  · have length := mirrors.length
    have pos := mirrors.pos
    refine ⟨_, write_cons held some_ may writes, ⟨mirrors.valid.wrote room, ?_, ?_, ?_⟩, ?_⟩
    all_goals rw [File.fwrite_places writes places]
    · rw [Stdio.overwrite_inside (by omega), Cursor.spliced, mirrors.place, mirrors.bytes]
    · push_cast
      rw [pos]
    · exact ⟨rfl, .inr rfl⟩

theorem seek_mirrored {offset : ℤ} {origin : SeekFrom} (held : b.fp = some f) (mirrors : Mirrors c f)
    (inside : 0 ≤ c.target offset origin ∧ c.target offset origin ≤ c.len) :
    ∃ f', seek offset origin b = .ok () { b with fp := some f' } ∧
      Mirrors { c with pos := c.target offset origin } f' ∧ f'.mode = f.mode ∧ f'.last = none := by
  have length := mirrors.length
  have pos := mirrors.pos
  have small := mirrors.valid.small
  have tells : (f.ftell : ℤ) = c.pos := by simpa [File.ftell, mirrors.clean] using pos
  have base : f.base (whence origin) + offset = c.target offset origin := by
    cases origin with
    | beginning => exact zero_add offset
    | current => exact congrArg (· + offset) tells
    | ending => exact congrArg (· + offset) length
  have seeks : f.fseek offset (whence origin) =
      some { f with pos := (c.target offset origin).toNat, pushed := [], last := none } := by
    have within : 0 ≤ c.target offset origin ∧ c.target offset origin < 2 ^ 63 := by omega
    simp only [File.fseek, base]
    exact if_pos within
  refine ⟨_, seek_run held seeks, ⟨⟨inside.1, inside.2, small⟩, mirrors.bytes, ?_, rfl⟩, rfl, rfl⟩
  exact Int.toNat_of_nonneg inside.1

end

/-- The results over a file that go with a result over a cursor. -/
inductive Follows {α : Type} (b : BinaryFileStream File) :
    Outcome Cursor StreamIoError MemoryFault α → Outcome (BinaryFileStream File) IoError Misuse α → Prop where
  | ok {a : α} {c : Cursor} {f : File} (mirrors : Mirrors c f) :
      Follows b (.ok a c) (.ok a { b with fp := some f })
  | drained {c : Cursor} {f : File} (bytes : f.bytes = c.bytes) (pos : f.pos = c.bytes.length) :
      Follows b (.threw .readOverflow c) (.threw .read { b with fp := some f })
  | threw {e : StreamIoError} {c : Cursor} {r : Outcome (BinaryFileStream File) IoError Misuse α}
      (other : e ≠ .readOverflow) : Follows b (.threw e c) r
  | undefined {fault : MemoryFault} {r : Outcome (BinaryFileStream File) IoError Misuse α} :
      Follows b (.undefined fault) r

theorem Follows.later {α : Type} {b : BinaryFileStream File} {f : File}
    {r : Outcome Cursor StreamIoError MemoryFault α} {r' : Outcome (BinaryFileStream File) IoError Misuse α}
    (rest : Follows { b with fp := some f } r r') : Follows b r r' := by
  cases rest with
  | ok mirrors => exact .ok mirrors
  | drained bytes pos => exact .drained bytes pos
  | threw other => exact .threw other
  | undefined => exact .undefined

section
variable {overflow : Overflow} {α : Type} {c : Cursor} {b : BinaryFileStream File} {f : File}

theorem follows_of_proper (client : Client α) {last : Option Direction} (held : b.fp = some f)
    (mirrors : Mirrors c f) (stands : f.last = none ∨ f.last = last) (proper : client.Proper f.mode last) :
    Follows b (client.runOn (Cursor.derived overflow) c) (client.runOn derived b) := by
  induction client generalizing c b f last with
  | done a =>
    have same : { b with fp := some f } = b := by rw [← held]
    rw [Client.runOn, Client.runOn, Program.pure_run, Program.pure_run, ← same]
    exact .ok mirrors
  | read n next ih =>
    rw [Client.Proper] at proper
    obtain ⟨reads, turns, later⟩ := proper
    have may : f.MayRead := by
      rcases stands with none | same
      · simp [File.MayRead, none]
      · rwa [File.MayRead, same]
    rw [Client.runOn, Client.runOn, Cursor.derived_read, derived_read]
    rcases Cursor.read_cases n c with ⟨run, -, room⟩ | ⟨run, full⟩ | ⟨fault, run⟩
    · obtain ⟨f', run', mirrors', mode, left⟩ := read_mirrored held mirrors reads may room
      have stands' : f'.last = none ∨ f'.last = some .input := by
        rcases left with kept | input
        · cases held' : f.last with
          | none => exact .inl (kept.trans held')
          | some d =>
            cases d with
            | input => exact .inr (kept.trans held')
            | output => exact absurd held' may
        · exact .inr input
      rw [Program.bind_ok run, Program.bind_ok run']
      exact (ih _ rfl mirrors' stands' (mode ▸ later _)).later
    · obtain ⟨f', run', bytes, pos⟩ := read_drained held mirrors reads may full
      rw [Program.bind_threw run, Program.bind_threw run']
      exact .drained bytes pos
    · rw [Program.bind_undefined run]
      exact .undefined
  | write data next ih =>
    rw [Client.Proper] at proper
    obtain ⟨⟨writes, places⟩, turns, later⟩ := proper
    have may : f.MayWrite := by
      rcases stands with none | same
      · simp [File.MayWrite, none]
      · rwa [File.MayWrite, same]
    rw [Client.runOn, Client.runOn, Cursor.derived_write, derived_write]
    rcases Cursor.write_cases data c with ⟨run, -, room⟩ | run | ⟨fault, run⟩
    · obtain ⟨f', run', mirrors', mode, left⟩ := write_mirrored held mirrors writes places may room
      have stands' : f'.last = none ∨ f'.last = some .output := by
        rcases left with kept | output
        · cases held' : f.last with
          | none => exact .inl (kept.trans held')
          | some d =>
            cases d with
            | input => exact absurd held' may
            | output => exact .inr (kept.trans held')
        · exact .inr output
      rw [Program.bind_ok run, Program.bind_ok run']
      exact (ih rfl mirrors' stands' (mode ▸ later)).later
    · rw [Program.bind_threw run]
      exact .threw (by decide)
    · rw [Program.bind_undefined run]
      exact .undefined
  | seek offset origin next ih =>
    rw [Client.Proper] at proper
    obtain ⟨typed, later⟩ := proper
    rw [Client.runOn, Client.runOn, Cursor.derived_seek, derived_seek]
    rcases @Cursor.seek_cases overflow c mirrors.valid offset typed origin with
      ⟨run, inside⟩ | run | ⟨fault, run⟩
    · obtain ⟨f', run', mirrors', mode, left⟩ := seek_mirrored held mirrors inside
      rw [Program.bind_ok run, Program.bind_ok run']
      exact (ih rfl mirrors' (.inl left) (mode ▸ later)).later
    · rw [Program.bind_threw run]
      exact .threw (by decide)
    · rw [Program.bind_undefined run]
      exact .undefined
  | tell next ih =>
    rw [Client.runOn, Client.runOn, Cursor.derived_tell, derived_tell]
    have run := tell_run held mirrors.clean
    rw [mirrors.pos] at run
    rw [Program.bind_ok (Program.read_run Cursor.tell c), Program.bind_ok run]
    rw [Client.Proper] at proper
    have typed : IsOffset c.pos := by
      obtain ⟨nonneg, le_len, small⟩ := mirrors.valid
      exact ⟨by omega, by omega⟩
    exact ih c.pos held mirrors stands (proper c.pos typed)

/-- Whatever code a stream is handed to, over a file it returns what it returns over a cursor, and
leaves the same bytes and position. If the cursor throws in a read, so does the file. -/
theorem follows_cursor (client : Client α) (held : b.fp = some f) (mirrors : Mirrors c f)
    (proper : client.Proper f.mode f.last) :
    (∀ a c', client.runOn (Cursor.derived overflow) c = .ok a c' →
      ∃ f', client.runOn derived b = .ok a { b with fp := some f' } ∧
        f'.bytes = c'.bytes ∧ (f'.pos : ℤ) = c'.tell) ∧
    ∀ c', client.runOn (Cursor.derived overflow) c = .threw .readOverflow c' →
      ∃ f', client.runOn derived b = .threw .read { b with fp := some f' } ∧
        f'.bytes = c'.bytes ∧ f'.pos = c'.bytes.length := by
  have follows := @follows_of_proper overflow α c b f client f.last held mirrors (.inr rfl) proper
  generalize client.runOn derived b = r at follows ⊢
  constructor
  · intro a c' run
    rw [run] at follows
    cases follows with
    | ok mirrors => exact ⟨_, rfl, mirrors.bytes, mirrors.pos⟩
  · intro c' run
    rw [run] at follows
    cases follows with
    | drained bytes pos => exact ⟨_, rfl, bytes, pos⟩
    | threw other => contradiction

end

/-- A byte is written, and two are read from the beginning on. -/
def rereads : Client (List UInt8) :=
  .write [9] (.seek 0 .beginning (.read 2 .done))

/-- A file opened for update with three bytes. -/
def threeBytes : BinaryFileStream File :=
  { fp := some { name := "a", mode := ⟨.read, true⟩, bytes := [1, 2, 3] } }

theorem follows_cursor_rereads : ∃ f', rereads.runOn derived threeBytes =
    .ok [9, 2] { threeBytes with fp := some f' } ∧ f'.bytes = [9, 2, 3] := by
  have valid : Cursor.Valid { bytes := [1, 2, 3] } := ⟨by decide, by decide, by decide⟩
  have proper : rereads.Proper ⟨.read, true⟩ none := 
    ⟨⟨rfl, rfl⟩, nofun, ⟨by decide, by decide⟩, rfl, nofun, fun _ => trivial⟩
  obtain ⟨f', run, bytes, -⟩ := (@follows_cursor .wraps _ { bytes := [1, 2, 3] } threeBytes _ rereads rfl
    ⟨valid, rfl, rfl, rfl⟩ proper).1 [9, 2] ⟨[9, 2, 3], 2⟩ rfl
  exact ⟨f', run, bytes⟩

end BinaryFileStream
end Celestite
