import Celestite.FileStream.Patching
import Celestite.Stream.Transfer

/-!
# Copying from file to file
-/

namespace Celestite.BinaryFileStream
open Stdio (File)

/-- `copy_from` from one file stream to another. -/
def copyFrom (passes n : ℕ) (s : BinaryFileStream File × BinaryFileStream File) :
    Option (Outcome (BinaryFileStream File × BinaryFileStream File) (CopyError IoError IoError)
      (Misuse ⊕ Misuse) Unit) :=
  WriteStream.copyFrom isOpen read isOpen write passes n s

def Copies (n : ℕ) (s : BinaryFileStream File × BinaryFileStream File)
    (r : Outcome (BinaryFileStream File × BinaryFileStream File) (CopyError IoError IoError)
      (Misuse ⊕ Misuse) Unit) : Prop :=
  ∃ passes, copyFrom passes n s = some r

section
variable {asked : Stdio.Mode} {name : String} {bytes ahead out : List UInt8} {a b : BinaryFileStream File} {n : ℕ}

theorem exhausts (bytes : List UInt8) : Exhausts read .read (Reading bytes) := by
  constructor
  rintro ahead a n ⟨f, held, size, same, reads, may, clean, inside, rfl⟩ short
  rw [List.length_drop] at short
  have drained := @File.fread_short n f reads clean (by rwa [same]) (by rw [same]; omega)
  have run := read_pos held (show n ≠ 0 by omega) may
  rw [drained, same, if_neg (by rw [List.length_drop]; omega)] at run
  exact ⟨_, run, _, rfl, size, rfl, reads, by simp [File.MayRead], clean, le_rfl,
    List.drop_of_length_le le_rfl⟩

theorem copies_iff {r r' : Outcome _ _ _ Unit} (both : a.isOpen = true ∧ b.isOpen = true)
    (ended : Program.Ends (fun n => n > 0) (WriteStream.copyChunk read write (bufSz n)) n (a, b) r) :
    Copies n (a, b) r' ↔ r' = r := by
  have looped (passes : ℕ) : copyFrom passes n (a, b) =
      Program.loop (fun n => n > 0) (WriteStream.copyChunk read write (bufSz n)) passes n (a, b) :=
    if_neg (not_not_intro both)
  constructor
  · rintro ⟨passes, finished⟩
    rw [looped] at finished
    exact Program.Ends.unique ⟨passes, finished⟩ ended
  · rintro rfl
    obtain ⟨passes, finished⟩ := ended
    exact ⟨passes, (looped passes).trans finished⟩

/-- A copy between open files ends. What the source has is behind what the destination had; if that is
not enough the full buffers are, and the source is at its end. A stream that is not open is an error. -/
theorem copy_from_files (writes : asked.writes = true) (n : ℕ) :
    (∀ a b, Reading bytes ahead a → Ending asked name out b → ∃ r, (∀ r', Copies n (a, b) r' ↔ r' = r) ∧
      (n ≤ ahead.length → ∃ a' b', r = .ok () (a', b') ∧ Reading bytes (ahead.drop n) a' ∧
        Ending asked name (out ++ ahead.take n) b') ∧
      (ahead.length < n → ∃ a' b', r = .threw (.source .read) (a', b') ∧ Reading bytes [] a' ∧
        Ending asked name (out ++ ahead.take (bufSz n * (ahead.length / bufSz n))) b')) ∧
    ∀ a b, a.isOpen = false ∨ b.isOpen = false → ∀ r, Copies n (a, b) r ↔ r = .threw .notOpen (a, b) := by
  constructor
  · intro a b reading ending
    have both : a.isOpen = true ∧ b.isOpen = true := by
      obtain ⟨f, held, -⟩ := reading
      obtain ⟨g, held', -⟩ := ending
      simp [isOpen, held, held']
    rcases le_or_gt n ahead.length with room | short
    · obtain ⟨a', b', ended, after, after'⟩ :=
        copied_whole (supplies bytes) (collects writes name) reading ending room buf_sz_pos
      refine ⟨_, fun r' => copies_iff both ended, fun _ => ⟨a', b', rfl, after, after'⟩, fun short => ?_⟩
      omega
    · have more : 0 < n := by omega
      obtain ⟨a', b', ended, after, after'⟩ := copied_short (supplies bytes) (exhausts bytes)
        (collects writes name) reading ending short (buf_sz_pos more)
      refine ⟨_, fun r' => copies_iff both ended, fun room => ?_, fun _ => ⟨a', b', rfl, after, after'⟩⟩
      omega
  · intro a b shut r
    have refused (passes : ℕ) : copyFrom passes n (a, b) = some (.threw .notOpen (a, b)) := by
      apply if_pos
      rintro ⟨there, there'⟩
      rcases shut with shut | shut <;> simp_all
    constructor
    · rintro ⟨passes, finished⟩
      rw [refused] at finished
      exact (Option.some.inj finished).symm
    · rintro rfl
      exact ⟨0, refused 0⟩

end

/-- Two bytes of three are copied into a file, and then the two that one byte is left of. -/
theorem copy_from_files_twice : ∃ a b a' b' a'' b'', Copies 2 (a, b) (.ok () (a', b')) ∧
    Copies 2 (a', b') (.threw (.source .read) (a'', b'')) ∧
    b''.closeOn (fun _ => none) = (true, {}, Function.update (fun _ => none) "b" (some [1, 2])) := by
  have source : Reading [1, 2, 3] [1, 2, 3]
      { fp := some { name := "a", mode := ⟨.read, false⟩, bytes := [1, 2, 3] }, fileSize := 3 } :=
    ⟨_, rfl, rfl, rfl, rfl, by decide, rfl, by decide, rfl⟩
  obtain ⟨b, -, -, dest, -⟩ := @openOn_ending "b" (fun _ => none) .write 0 (by decide) (by decide)
  obtain ⟨_, runs, whole, -⟩ := (copy_from_files (by decide) 2).1 _ b source dest
  obtain ⟨a', b', rfl, reading, ending⟩ := whole (by decide)
  obtain ⟨_, runs', -, short⟩ := (copy_from_files (by decide) 2).1 a' b' reading ending
  obtain ⟨a'', b'', rfl, -, ending'⟩ := short (by decide)
  exact ⟨_, b, a', b', a'', b'', (runs _).mpr rfl, (runs' _).mpr rfl, closeOn_ending ending'⟩

end Celestite.BinaryFileStream
