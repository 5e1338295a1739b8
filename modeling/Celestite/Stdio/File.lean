import Mathlib.Algebra.Order.Ring.Int
import Mathlib.Logic.Function.Basic
import Mathlib.Tactic.SplitIfs

/-!
# Binary streams of the C library

A `FILE` on a regular file of a disk on which no call fails for want of space or permission. What
was pushed back is read first, and the last operation decides what may directly follow.
-/

namespace Celestite.Stdio

inductive Kind where
  | read
  | write
  | append
  deriving DecidableEq

/-- What a mode string asks for. -/
structure Mode where
  kind : Kind
  update : Bool
  deriving DecidableEq

namespace Mode

def parse : List Char → Option Mode
  | 'r' :: flags => some ⟨.read, flags.contains '+'⟩
  | 'w' :: flags => some ⟨.write, flags.contains '+'⟩
  | 'a' :: flags => some ⟨.append, flags.contains '+'⟩
  | _ => none

def reads (m : Mode) : Bool := m.update || m.kind == .read

def writes (m : Mode) : Bool := m.update || m.kind != .read

def appends (m : Mode) : Bool := m.kind == .append

end Mode

inductive Whence where
  | seekSet
  | seekCur
  | seekEnd
  deriving DecidableEq

inductive Direction where
  | input
  | output
  deriving DecidableEq

structure File where
  name : String
  mode : Mode
  bytes : List UInt8
  pos : ℕ := 0
  pushed : List UInt8 := []
  /-- The last operation, unless it was a call that sets the position or reached the end. -/
  last : Option Direction := none
  error : Bool := false
  deriving DecidableEq

/-- `bytes` with `data` from `place` on, and zeros up to there if there were fewer bytes. -/
def overwrite (bytes : List UInt8) (place : ℕ) (data : List UInt8) : List UInt8 :=
  bytes.take place ++ List.replicate (place - bytes.length) 0 ++ data ++ bytes.drop (place + data.length)

namespace File

/-- Output is not directly followed by input. -/
def MayRead (f : File) : Prop := f.last ≠ some .output

/-- Nor is input by output. -/
def MayWrite (f : File) : Prop := f.last ≠ some .input

instance (f : File) : Decidable f.MayRead := inferInstanceAs (Decidable (_ ≠ _))

instance (f : File) : Decidable f.MayWrite := inferInstanceAs (Decidable (_ ≠ _))

def ahead (f : File) : List UInt8 := f.pushed ++ f.bytes.drop f.pos

/-- The bytes that are read, at most `n`. -/
def fread (n : ℕ) (f : File) : List UInt8 × File :=
  if f.mode.reads then
    (f.ahead.take n,
      { f with
        pos := f.pos + ((f.ahead.take n).length - f.pushed.length)
        pushed := f.pushed.drop n
        last := if (f.ahead.take n).length < n then none else some .input })
  else ([], { f with error := true })

def place (f : File) : ℕ := if f.mode.appends then f.bytes.length else f.pos

/-- Whether all of `data` is written. -/
def fwrite (data : List UInt8) (f : File) : Bool × File :=
  if f.mode.writes then
    (true,
      { f with
        bytes := overwrite f.bytes f.place data
        pos := f.place + data.length
        pushed := []
        last := some .output })
  else (false, { f with error := true })

/-- The first character pushed back is guaranteed to be accepted. -/
def ungetc (ch : UInt8) (f : File) : File := { f with pushed := ch :: f.pushed, last := some .input }

def ftell (f : File) : ℕ := f.pos - f.pushed.length

def base (f : File) : Whence → ℤ
  | .seekSet => 0
  | .seekCur => f.ftell
  | .seekEnd => f.bytes.length

/-- A disk takes every target that is an offset of 64 bits; file systems may refuse smaller ones too. A
seek that fails keeps what was pushed back, which a library may drop. -/
def fseek (offset : ℤ) (whence : Whence) (f : File) : Option File :=
  let target := f.base whence + offset
  if 0 ≤ target ∧ target < 2 ^ 63 then some { f with pos := target.toNat, pushed := [], last := none }
  else none

end File

abbrev Disk := String → Option (List UInt8)

namespace Disk

/-- The position of a stream that appends is at first one that the library chooses. -/
def fopen (disk : Disk) (name : String) (mode : Mode) (start : ℕ) : Option File × Disk :=
  match mode.kind, disk name with
  | .read, none => (none, disk)
  | .read, some bytes => (some { name := name, mode := mode, bytes := bytes }, disk)
  | .write, _ => (some { name := name, mode := mode, bytes := [] }, Function.update disk name (some []))
  | .append, found =>
    (some { name := name, mode := mode, bytes := found.getD [], pos := start },
      Function.update disk name (some (found.getD [])))

def fclose (disk : Disk) (f : File) : Disk := Function.update disk f.name (some f.bytes)

end Disk

/-! ### What the calls do -/

section
variable {bytes data more : List UInt8} {place n : ℕ} {f : File}

theorem overwrite_inside (inside : place ≤ bytes.length) :
    overwrite bytes place data = bytes.take place ++ data ++ bytes.drop (place + data.length) := by
  rw [overwrite, Nat.sub_eq_zero_of_le inside, List.replicate_zero, List.append_nil]

theorem overwrite_end : overwrite bytes bytes.length data = bytes ++ data := by
  rw [overwrite_inside le_rfl, List.take_length, List.drop_of_length_le (Nat.le_add_right _ _),
    List.append_nil]

theorem length_overwrite : (overwrite bytes place data).length = max bytes.length (place + data.length) := by
  simp only [overwrite, List.length_append, List.length_take, List.length_replicate, List.length_drop]
  omega

namespace File

theorem fread_run (reads : f.mode.reads = true) (clean : f.pushed = []) :
    f.fread n = ((f.bytes.drop f.pos).take n,
      { f with
        pos := f.pos + ((f.bytes.drop f.pos).take n).length
        last := if ((f.bytes.drop f.pos).take n).length < n then none else some .input }) := by
  have ahead : f.ahead = f.bytes.drop f.pos := by rw [File.ahead, clean, List.nil_append]
  rw [fread, if_pos reads, ahead, clean]
  simp

theorem fread_fits (reads : f.mode.reads = true) (clean : f.pushed = [])
    (room : f.pos + n ≤ f.bytes.length) :
    f.fread n = ((f.bytes.drop f.pos).take n, { f with pos := f.pos + n, last := some .input }) := by
  have length : ((f.bytes.drop f.pos).take n).length = n := by
    rw [List.length_take, List.length_drop]
    omega
  rw [fread_run reads clean, length, if_neg (lt_irrefl n)]

theorem fread_short (reads : f.mode.reads = true) (clean : f.pushed = []) (inside : f.pos ≤ f.bytes.length)
    (short : f.bytes.length < f.pos + n) :
    f.fread n = (f.bytes.drop f.pos, { f with pos := f.bytes.length, last := none }) := by
  have whole : (f.bytes.drop f.pos).take n = f.bytes.drop f.pos := by
    apply List.take_of_length_le
    rw [List.length_drop]
    omega
  have fewer : (f.bytes.drop f.pos).length < n := by
    rw [List.length_drop]
    omega
  have sum : f.pos + (f.bytes.drop f.pos).length = f.bytes.length := by
    rw [List.length_drop]
    omega
  rw [fread_run reads clean, whole, if_pos fewer, sum]

theorem fwrite_appends (writes : f.mode.writes = true) (appends : f.mode.appends = true) :
    f.fwrite data = (true,
      { f with
        bytes := f.bytes ++ data
        pos := f.bytes.length + data.length
        pushed := []
        last := some .output }) := by
  rw [fwrite, if_pos writes, place, if_pos appends, overwrite_end]

theorem fwrite_places (writes : f.mode.writes = true) (places : f.mode.appends = false) :
    f.fwrite data = (true,
      { f with
        bytes := overwrite f.bytes f.pos data
        pos := f.pos + data.length
        pushed := []
        last := some .output }) := by
  have here : f.place = f.pos := by simp [place, places]
  rw [fwrite, if_pos writes, here]

end File
end
end Celestite.Stdio
