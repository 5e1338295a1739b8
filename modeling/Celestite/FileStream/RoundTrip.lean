import Celestite.FileStream.Interchange
import Celestite.Stream.Derived

/-!
# Numbers through a file

What `write_nums` writes to a file is there when the stream has been closed, behind what the mode
kept, and `read_nums` reads it when the file is opened again.
-/

namespace Celestite.BinaryFileStream
open Stdio (File Disk)

/-- The bytes that opening a file in this mode keeps. -/
def kept (disk : Disk) (name : String) (mode : FileStreamMode) : List UInt8 :=
  if mode.asked.appends then (disk name).getD [] else []

/-- The stream is open and writes at the end of its file. -/
def Ending (mode : Stdio.Mode) (name : String) (bytes : List UInt8) (b : BinaryFileStream File) : Prop :=
  ∃ f, b.fp = some f ∧ f.name = name ∧ f.bytes = bytes ∧ f.mode = mode ∧ f.MayWrite ∧
    f.place = bytes.length ∧ f.pushed = [] ∧ f.pos ≤ bytes.length

/-- The stream is open and is to read `ahead`, the last bytes of its file. -/
def Reading (bytes ahead : List UInt8) (b : BinaryFileStream File) : Prop :=
  ∃ f, b.fp = some f ∧ b.fileSize = bytes.length ∧ f.bytes = bytes ∧ f.mode.reads = true ∧
    f.MayRead ∧ f.pushed = [] ∧ f.pos ≤ bytes.length ∧ bytes.drop f.pos = ahead

section
variable {name : String} {bytes ahead data : List UInt8} {b : BinaryFileStream File} {disk : Disk}
  {mode : FileStreamMode} {start n : ℕ}

theorem collects {asked : Stdio.Mode} (writes : asked.writes = true) (name : String) :
    Collects write (Ending asked name) := by
  constructor
  rintro bytes b ⟨f, held, same, rfl, rfl, may, place, clean, inside⟩ data
  rcases eq_or_ne data [] with rfl | some_
  · rw [List.append_nil]
    exact ⟨b, write_nil held, f, held, same, rfl, rfl, may, place, clean, inside⟩
  · refine ⟨_, write_cons held some_ may writes, _, rfl, ?_⟩
    have wrote : f.fwrite data = (true,
        { f with
          bytes := f.bytes ++ data
          pos := f.bytes.length + data.length
          pushed := []
          last := some .output }) := by
      rw [File.fwrite, if_pos writes, place, Stdio.overwrite_end]
    rw [wrote]
    refine ⟨same, rfl, rfl, by simp [File.MayWrite], ?_, rfl, List.length_append.ge⟩
    unfold File.place
    split_ifs with appends
    · rfl
    · exact List.length_append.symm

theorem supplies (bytes : List UInt8) : Supplies read (Reading bytes) := by
  constructor
  rintro ahead b n ⟨f, held, size, same, reads, may, clean, inside, rfl⟩ room
  rcases Nat.eq_zero_or_pos n with rfl | some_
  · exact ⟨b, read_zero held, ⟨f, held, size, same, reads, may, clean, inside, rfl⟩⟩
  · rw [List.length_drop] at room
    have fits := @File.fread_fits n f reads clean (by rw [same]; omega)
    have length : ((f.bytes.drop f.pos).take n).length = n := by
      rw [List.length_take, List.length_drop, same]
      omega
    have run := read_pos held (show n ≠ 0 by omega) may
    rw [fits, if_pos length, same] at run
    refine ⟨_, run, ⟨_, rfl, size, rfl, reads, nofun, clean, ?_, (List.drop_drop).symm⟩⟩
    simp only
    omega

/-- At the end of the file nothing more is read, and the position is its length. -/
theorem Reading.drained (reading : Reading bytes [] b) :
    tell b = .ok (bytes.length : ℤ) b ∧
    ∀ n, 0 < n → ∃ b', read n b = .threw .read b' := by
  obtain ⟨f, held, -, same, reads, may, clean, inside, drained⟩ := reading
  have place : f.pos = bytes.length := by
    have := List.drop_eq_nil_iff.mp drained
    omega
  constructor
  · rw [tell_run held clean, place]
  · intro n some_
    have short := @File.fread_short n f reads clean (by rw [same, place]) (by rw [same, place]; omega)
    have run := read_pos held (show n ≠ 0 by omega) may
    rw [short, same, drained, if_neg (by simp; omega)] at run
    exact ⟨_, run⟩

/-- `start` is a position in the file as it was. -/
theorem openOn_ending (writes : mode.asked.kind ≠ .read) (inside : start ≤ ((disk name).getD []).length) :
    ∃ b disk', openOn {} disk name mode start = (true, b, disk') ∧
      Ending mode.asked name (kept disk name mode) b ∧ ∀ other, other ≠ name → disk' other = disk other := by
  cases mode with
  | read | readExtended => exact absurd rfl writes
  | write | writeExtended =>
    refine ⟨_, _, rfl, ⟨_, rfl, rfl, rfl, rfl, nofun, rfl, rfl, Nat.zero_le _⟩, ?_⟩
    intro other apart
    exact Function.update_of_ne apart _ _
  | append | appendExtended =>
    refine ⟨_, _, rfl, ⟨_, rfl, rfl, rfl, rfl, nofun, rfl, rfl, inside⟩, ?_⟩
    intro other apart
    exact Function.update_of_ne apart _ _

theorem writes_of_kind (writes : mode.asked.kind ≠ .read) : mode.asked.writes = true := by
  cases mode with
  | read | readExtended => exact absurd rfl writes
  | _ => rfl

theorem closeOn_ending {asked : Stdio.Mode} (ending : Ending asked name bytes b) :
    b.closeOn disk = (true, {}, Function.update disk name (some bytes)) := by
  obtain ⟨f, held, rfl, rfl, -⟩ := ending
  simp [closeOn, close, held, Disk.fclose]

theorem openOn_reading (there : disk name = some bytes) :
    ∃ b, openOn {} disk name .read start = (true, b, disk) ∧ b.getLength = bytes.length ∧
      Reading bytes bytes b := by
  have opened : disk.fopen name FileStreamMode.read.asked start =
      (some { name := name, mode := ⟨.read, false⟩, bytes := bytes }, disk) := by
    unfold Disk.fopen
    rw [there]
    rfl
  refine ⟨{ fp := some { name := name, mode := ⟨.read, false⟩, bytes := bytes }, fileSize := bytes.length },
    ?_, rfl, ⟨_, rfl, rfl, rfl, rfl, nofun, rfl, Nat.zero_le _, rfl⟩⟩
  simp [openOn, opened, open_, FileStreamMode.measures]

theorem seek_reading (reading : Reading bytes ahead b) (inside : n ≤ bytes.length)
    (small : bytes.length < 2 ^ 63) :
    ∃ b', seek n .beginning b = .ok () b' ∧ b'.fileSize = b.fileSize ∧ Reading bytes (bytes.drop n) b' := by
  obtain ⟨f, held, size, same, reads, -⟩ := reading
  have seeks := @fseek_beginning f n (by omega)
  exact ⟨_, seek_run held seeks, rfl, _, rfl, size, same, reads, by simp [File.MayRead], rfl, inside, rfl⟩

end

section
variable {sender receiver endian : Endian} {fs : List Field} {disk : Disk} {name : String} {start : ℕ}
  {mode : FileStreamMode} {bytes before : List UInt8}

theorem numbers_stored (src : Vars fs) (writes : mode.asked.kind ≠ .read)
    (inside : start ≤ ((disk name).getD []).length) :
    ∃ b disk' b', openOn {} disk name mode start = (true, b, disk') ∧
      WriteStream.writeFields write sender endian src b = .ok () b' ∧
      b'.closeOn disk' = (true, {}, Function.update disk name
        (some (kept disk name mode ++ positionals endian fs (src.values sender)))) := by
  obtain ⟨b, disk', opened, ending, others⟩ := @openOn_ending name disk mode start writes inside
  obtain ⟨b', wrote, done⟩ := @writeFields_collected sender endian _ _ _ _ _ _ _ _
    (collects (writes_of_kind writes) name) ending src
  refine ⟨b, disk', b', opened, wrote, (closeOn_ending done).trans ?_⟩
  congr 2
  funext other
  by_cases same : other = name
  · rw [same, Function.update_self, Function.update_self]
  · rw [Function.update_of_ne same, Function.update_of_ne same, others other same]

theorem numbers_loaded (src dst : Vars fs)
    (there : disk name = some (before ++ positionals endian fs (src.values sender)))
    (small : before.length + Field.total fs < 2 ^ 63) :
    ∃ b got b', openOn {} disk name .read start = (true, b, disk) ∧
      b.getLength = (before.length + Field.total fs : ℕ) ∧
      (Client.seek before.length .beginning (Client.readFields receiver endian fs dst .done)).runOn derived b =
        .ok got b' ∧
      got.values receiver = List.zipWith Field.transferred fs (src.values sender) ∧
      tell b' = .ok ((before.length + Field.total fs : ℕ) : ℤ) b' ∧
      ∀ n, 0 < n → ∃ b'', read n b' = .threw .read b'' := by
  rw [positionals_emitted] at there
  have sent := @length_emitted sender endian fs src
  have values : (parsed receiver endian fs (emitted sender endian src)).values receiver = _ :=
    values_parsed_emitted src
  generalize emitted sender endian src = data at there sent values
  have length : (before ++ data).length = before.length + Field.total fs := by rw [List.length_append, sent]
  obtain ⟨b, opened, size, reading⟩ := @openOn_reading name _ disk start there
  obtain ⟨mid, sought, -, after⟩ := seek_reading reading (n := before.length) (by omega) (by omega)
  rw [List.drop_left] at after
  obtain ⟨last, done, run⟩ := @readFields_supplied receiver endian _ _ _ _ _ derived _ _ _
    (supplies _) after sent.ge dst .done
  rw [List.drop_of_length_le sent.le] at done
  rw [List.take_of_length_le sent.le] at run
  obtain ⟨tells, drained⟩ := done.drained
  rw [length] at tells size
  refine ⟨b, _, last, opened, size, ?_, values, tells, drained⟩
  rw [over_seek_ok sought, run]
  rfl

/-- Numbers that are written to a file that has been opened for writing or appending are all that is
there when it is closed, after the bytes that the mode keeps. Opened again, the file has their length
in addition, and a host of any order reads them there, and nothing more. -/
theorem numbers_through_file (sender receiver endian : Endian) (start again : ℕ) (src dst : Vars fs)
    (writes : mode.asked.kind ≠ .read) (inside : start ≤ ((disk name).getD []).length)
    (small : (kept disk name mode).length + Field.total fs < 2 ^ 63) :
    ∃ b disk' b', openOn {} disk name mode start = (true, b, disk') ∧
      WriteStream.writeFields write sender endian src b = .ok () b' ∧
      ∃ disk'', b'.closeOn disk' = (true, {}, disk'') ∧
        disk'' name = some (kept disk name mode ++ positionals endian fs (src.values sender)) ∧
        (∀ other, other ≠ name → disk'' other = disk other) ∧
        ∃ c got c', openOn {} disk'' name .read again = (true, c, disk'') ∧
          c.getLength = ((kept disk name mode).length + Field.total fs : ℕ) ∧
          (Client.seek (kept disk name mode).length .beginning
            (Client.readFields receiver endian fs dst .done)).runOn derived c = .ok got c' ∧
          got.values receiver = List.zipWith Field.transferred fs (src.values sender) ∧
          tell c' = .ok (((kept disk name mode).length + Field.total fs : ℕ) : ℤ) c' ∧
          ∀ n, 0 < n → ∃ c'', read n c' = .threw .read c'' := by
  obtain ⟨b, disk', b', opened, wrote, closed⟩ :=
    @numbers_stored sender endian fs disk name start mode src writes inside
  have there := Function.update_self name (some (kept disk name mode ++
    positionals endian fs (src.values sender))) disk
  refine ⟨b, disk', b', opened, wrote, _, closed, there, ?_, numbers_loaded src dst there small⟩
  intro other apart
  exact Function.update_of_ne apart _ _

end

/-- Two numbers are appended to a file of one byte by a little-endian host, and read by the other. -/
theorem numbers_through_file_mixed : ∃ disk c got c', disk "a" = some [7, 2, 3, 4, 0xff, 0xfe] ∧
    openOn {} disk "a" .read 0 = (true, c, disk) ∧ c.getLength = 6 ∧
      (Client.seek 1 .beginning (Client.readFields .BE .BE mixed (mixedOn .BE) .done)).runOn derived c =
        .ok got c' ∧ got.values .BE = [0x020304, -2] := by
  obtain ⟨_, _, _, _, _, disk, _, there, _, c, got, c', opened, length, run, values, -⟩ :=
    @numbers_through_file mixed (fun _ => some [7]) "a" .append .LE .BE .BE 0 0 (mixedOn .LE) (mixedOn .BE)
      (by decide) (by decide) (by decide)
  exact ⟨disk, c, got, c', there.trans (by decide), opened, length, run, values.trans (by decide)⟩

end Celestite.BinaryFileStream
