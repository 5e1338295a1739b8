import Celestite.FileStream.Model
import Celestite.Stdio.File
import Celestite.Stream.Cursor

/-!
# Reading and writing a file stream

The methods of `clst::BinaryFileStream` that pass on to the C library. A stream owns its `FILE`, so
the `FILE` is part of the stream here.
-/

namespace Celestite

def FileStreamMode.modeStr : FileStreamMode → String
  | read => "rb"
  | write => "wb"
  | append => "ab"
  | readExtended => "r+b"
  | writeExtended => "w+b"
  | appendExtended => "a+b"

def FileStreamMode.asked : FileStreamMode → Stdio.Mode
  | read => ⟨.read, false⟩
  | write => ⟨.write, false⟩
  | append => ⟨.append, false⟩
  | readExtended => ⟨.read, true⟩
  | writeExtended => ⟨.write, true⟩
  | appendExtended => ⟨.append, true⟩

theorem FileStreamMode.parse_modeStr (mode : FileStreamMode) :
    Stdio.Mode.parse mode.modeStr.toList = some mode.asked := by
  cases mode <;> rfl

namespace BinaryFileStream
open Stdio (File Disk)

/-- What the methods throw. -/
inductive IoError where
  | read
  | getc
  | putc
  | write
  | seek
  | tell
  deriving DecidableEq

def IoError.what : IoError → String
  | read => "File stream read error"
  | getc => "File stream getc error"
  | putc => "File stream putc error"
  | write => "File stream write error"
  | seek => "File stream seek error"
  | tell => "File stream tell error"

inductive Misuse where
  /-- A call on a stream that is not open. -/
  | notOpen
  /-- Input directly after output, or output directly after input. -/
  | turnaround
  /-- The position after more was pushed back than had been read. -/
  | indeterminate
  /-- More than the one character was pushed back. -/
  | pushback
  deriving DecidableEq

abbrev Op (α : Type) := Program (BinaryFileStream File) IoError Misuse α

/-- `fp_`, with the `assert` that it is not null. -/
def file : Op File := fun b =>
  match b.fp with
  | some f => .ok f b
  | none => .undefined .notOpen

def keep (f : File) : Op Unit := Program.update fun b => { b with fp := some f }

/-- The bytes that are in the buffer when the call returns. -/
def read (n : ℕ) : Op (List UInt8) := do
  let f ← file
  if n = 0 then pure []
  else do
    Program.require f.MayRead .turnaround
    keep (f.fread n).2
    if (f.fread n).1.length = n then pure (f.fread n).1 else Program.throw .read

/-- The character, or none for `EOF`. -/
def getc : Op (Option UInt8) := do
  let f ← file
  Program.require f.MayRead .turnaround
  keep (f.fread 1).2
  if (f.fread 1).1 = [] ∧ (f.fread 1).2.error then Program.throw .getc else pure (f.fread 1).1.head?

def ungetc (ch : Option UInt8) : Op (Option UInt8) := do
  let f ← file
  match ch with
  | none => pure none
  | some byte => do
    Program.require (f.pushed = []) .pushback
    keep (f.ungetc byte)
    pure (some byte)

def putc (ch : UInt8) : Op Unit := do
  let f ← file
  Program.require f.MayWrite .turnaround
  keep (f.fwrite [ch]).2
  if (f.fwrite [ch]).1 then pure () else Program.throw .putc

def write (data : List UInt8) : Op Unit := do
  let f ← file
  if data = [] then pure ()
  else do
    Program.require f.MayWrite .turnaround
    keep (f.fwrite data).2
    if (f.fwrite data).1 then pure () else Program.throw .write

def whence : SeekFrom → Stdio.Whence
  | .beginning => .seekSet
  | .current => .seekCur
  | .ending => .seekEnd

def seek (offset : ℤ) (origin : SeekFrom) : Op Unit := do
  let f ← file
  match f.fseek offset (whence origin) with
  | some after => keep after
  | none => Program.throw .seek

/-- The result of `ftell64` is not negative, so this does not throw. -/
def tell : Op ℤ := do
  let f ← file
  Program.require (f.pushed.length ≤ f.pos) .indeterminate
  pure f.ftell

/-- `open` of a file on a disk: `fseek64` and `ftell64` find the end of any file. -/
def openOn (b : BinaryFileStream File) (disk : Disk) (name : String) (mode : FileStreamMode) (start : ℕ) :
    Bool × BinaryFileStream File × Disk :=
  if b.fp.isSome then (false, b, disk)
  else
    let opened := disk.fopen name mode.asked start
    let result := b.open_ mode
      { file := opened.1
        seeksEnd := true
        length := ((opened.1.map (·.bytes.length)).getD 0 : ℕ) }
    (result.1, result.2, opened.2)

/-- `close` on a disk: `fclose` of the file. -/
def closeOn (b : BinaryFileStream File) (disk : Disk) : Bool × BinaryFileStream File × Disk :=
  (b.close.1, b.close.2.1, b.fp.elim disk disk.fclose)

/-! ### What the calls do -/

section
variable {b : BinaryFileStream File} {f : File} {n : ℕ} {data : List UInt8}

theorem file_run (held : b.fp = some f) : file b = .ok f b := by
  unfold file
  rw [held]

theorem read_zero (held : b.fp = some f) : read 0 b = .ok [] b := by
  rw [read, Program.bind_ok (file_run held), if_pos rfl, Program.pure_run]

theorem read_pos (held : b.fp = some f) (some_ : n ≠ 0) (may : f.MayRead) :
    read n b = if (f.fread n).1.length = n then .ok (f.fread n).1 { b with fp := some (f.fread n).2 }
      else .threw .read { b with fp := some (f.fread n).2 } := by
  rw [read, Program.bind_ok (file_run held), if_neg some_, Program.bind_ok (Program.require_run may),
    keep, Program.bind_ok (Program.update_run _ b)]
  split_ifs <;> rfl

theorem write_nil (held : b.fp = some f) : write [] b = .ok () b := by
  rw [write, Program.bind_ok (file_run held), if_pos rfl, Program.pure_run]

theorem write_cons (held : b.fp = some f) (some_ : data ≠ []) (may : f.MayWrite)
    (writes : f.mode.writes = true) :
    write data b = .ok () { b with fp := some (f.fwrite data).2 } := by
  have done : (f.fwrite data).1 = true := by rw [File.fwrite, if_pos writes]
  rw [write, Program.bind_ok (file_run held), if_neg some_, Program.bind_ok (Program.require_run may),
    keep, Program.bind_ok (Program.update_run _ b), if_pos done, Program.pure_run]

theorem seek_run {offset : ℤ} {origin : SeekFrom} {after : File} (held : b.fp = some f)
    (seeks : f.fseek offset (whence origin) = some after) :
    seek offset origin b = .ok () { b with fp := some after } := by
  rw [seek, Program.bind_ok (file_run held), seeks]
  rfl

theorem fseek_beginning (small : n < 2 ^ 63) :
    f.fseek n (whence .beginning) = some { f with pos := n, pushed := [], last := none } := by
  have target : f.base (whence .beginning) + n = n := zero_add _
  have within : (0 : ℤ) ≤ n ∧ (n : ℤ) < 2 ^ 63 := by omega
  simp only [File.fseek, target, if_pos within, Int.toNat_natCast]

theorem tell_run (held : b.fp = some f) (clean : f.pushed = []) : tell b = .ok (f.pos : ℤ) b := by
  have determinate : f.pushed.length ≤ f.pos := by simp [clean]
  have same : f.ftell = f.pos := by simp [File.ftell, clean]
  rw [tell, Program.bind_ok (file_run held), Program.bind_ok (Program.require_run determinate), same,
    Program.pure_run]

end
end BinaryFileStream
end Celestite
