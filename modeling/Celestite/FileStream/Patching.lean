import Celestite.FileStream.RoundTrip

/-!
# A header that is patched into a file

`patch_bytes` on a file stream. Where the mode appends, the C library writes at the end whatever the
position is, so the patch is added there.
-/

namespace Celestite
open Stdio (File Disk)

def WriteStream.patchBytes {σ ε φ : Type} (d : Derived σ ε φ) (offset : ℤ) (data : List UInt8) :
    Program σ ε φ Unit := do
  let mark ← d.tell
  d.seek offset .beginning
  d.write data
  d.seek mark .beginning

/-- The bytes of a file after a patch. -/
def patched (mode : Stdio.Mode) (bytes : List UInt8) (place : ℕ) (data : List UInt8) : List UInt8 :=
  if mode.appends then bytes ++ data else Stdio.overwrite bytes place data

namespace BinaryFileStream

section
variable {asked : Stdio.Mode} {name : String} {bytes data : List UInt8} {b : BinaryFileStream File} {f : File}
  {n : ℕ}

theorem length_patched (room : n + data.length ≤ bytes.length) :
    bytes.length ≤ (patched asked bytes n data).length ∧
      (patched asked bytes n data).length ≤ bytes.length + data.length := by
  unfold patched
  split_ifs
  · simp
  · rw [Stdio.length_overwrite]
    omega

theorem fwrite_patched (writes : asked.writes = true) (mode : f.mode = asked) (held : f.bytes = bytes)
    (pos : f.pos = n) :
    (f.fwrite data).2.bytes = patched asked bytes n data ∧ (f.fwrite data).2.name = f.name ∧
      (f.fwrite data).2.mode = asked := by
  subst mode held pos
  unfold patched
  split_ifs with appends
  · rw [File.fwrite_appends writes appends]
    exact ⟨rfl, rfl, rfl⟩
  · rw [File.fwrite_places writes (by simpa using appends)]
    exact ⟨rfl, rfl, rfl⟩

/-- The position is what it was before, and output goes on at the end. -/
theorem patch_ending (writes : asked.writes = true) (ending : Ending asked name bytes b)
    (room : n + data.length ≤ bytes.length) (small : bytes.length < 2 ^ 63) (some_ : data ≠ []) :
    ∃ b' mark, tell b = .ok mark b ∧ WriteStream.patchBytes derived n data b = .ok () b' ∧
      tell b' = .ok mark b' ∧ Ending asked name (patched asked bytes n data) b' := by
  obtain ⟨f, held, same, rfl, mode, may, place, clean, inside⟩ := ending
  have there := @seek_run b f n .beginning _ held (fseek_beginning (by omega))
  have wrote := @write_cons { b with fp := some { f with pos := n, pushed := [], last := none } }
    { f with pos := n, pushed := [], last := none } data rfl some_ (by simp [File.MayWrite]) (mode ▸ writes)
  obtain ⟨content, named, kept⟩ := @fwrite_patched asked f.bytes data
    { f with pos := n, pushed := [], last := none } n writes mode rfl rfl
  have longer := @length_patched asked f.bytes data n room
  generalize (File.fwrite data { f with pos := n, pushed := [], last := none }).2 = g at *
  have back := @seek_run { b with fp := some g } g f.pos .beginning _ rfl
    (@fseek_beginning g f.pos (by omega))
  refine ⟨{ b with fp := some { g with pos := f.pos, pushed := [], last := none } }, f.pos,
    tell_run held clean, ?_, @tell_run _ { g with pos := f.pos, pushed := [], last := none } rfl rfl, _, rfl,
    named.trans same, content, kept, by simp [File.MayWrite], ?_, rfl, ?_⟩
  · rw [WriteStream.patchBytes, derived_tell, derived_seek, derived_write,
      Program.bind_ok (tell_run held clean), Program.bind_ok there, Program.bind_ok wrote, back]
  · unfold File.place at place ⊢
    unfold patched
    rw [mode] at place
    simp only [kept]
    split_ifs at place ⊢ with appends
    · rw [content, patched, if_pos appends]
    · rw [Stdio.length_overwrite, max_eq_left room]
      exact place
  · simp only
    omega

end

/-- A header is written as a placeholder, the body after it, and then the header over it. A file that
is opened for writing has the header before the body and can be written on behind it; one that is
opened for appending keeps the placeholder and has the header behind the body. -/
theorem header_patched {disk : Disk} {name : String} {mode : FileStreamMode} {start : ℕ}
    {placeholder header body trailer : List UInt8} (writes : mode.asked.kind ≠ .read)
    (inside : start ≤ ((disk name).getD []).length) (some_ : header ≠ [])
    (length : header.length = placeholder.length)
    (small : (kept disk name mode).length + placeholder.length + body.length < 2 ^ 63) :
    ∃ b disk' b', openOn {} disk name mode start = (true, b, disk') ∧
      (do write placeholder
          write body
          WriteStream.patchBytes derived (kept disk name mode).length header
          write trailer : Op Unit) b = .ok () b' ∧
      ∃ disk'', b'.closeOn disk' = (true, {}, disk'') ∧
        disk'' name = some (kept disk name mode ++
          if mode.asked.appends then placeholder ++ body ++ header ++ trailer
          else header ++ body ++ trailer) := by
  have outputs := writes_of_kind writes
  obtain ⟨b, disk', opened, ending, -⟩ := @openOn_ending name disk mode start writes inside
  generalize kept disk name mode = before at *
  obtain ⟨b₁, first, ending⟩ := (collects outputs name).write ending placeholder
  obtain ⟨b₂, second, ending⟩ := (collects outputs name).write ending body
  have room : before.length + header.length ≤ (before ++ placeholder ++ body).length := by
    rw [List.length_append, List.length_append, length]
    omega
  have small : (before ++ placeholder ++ body).length < 2 ^ 63 := by
    rw [List.length_append, List.length_append]
    omega
  obtain ⟨b₃, mark, -, third, -, ending⟩ := patch_ending outputs ending room small some_
  obtain ⟨b₄, fourth, ending⟩ := (collects outputs name).write ending trailer
  refine ⟨b, disk', b₄, opened, ?_, _, closeOn_ending ending, ?_⟩
  · rw [Program.bind_ok first, Program.bind_ok second, Program.bind_ok third, fourth]
  · have covered : Stdio.overwrite (before ++ placeholder ++ body) before.length header =
        before ++ header ++ body := by
      have past : before.length + header.length = (before ++ placeholder).length := by
        rw [List.length_append, length]
      rw [Stdio.overwrite_inside (by omega), past, List.drop_left, List.append_assoc before, List.take_left]
    rw [Function.update_self, patched, covered]
    split_ifs <;> simp [List.append_assoc]

/-- The header of a file that is appended to ends up behind the body. -/
theorem header_patched_appended : ∃ b disk' disk'', closeOn b disk' = (true, {}, disk'') ∧
    disk'' "a" = some [7, 0, 1, 2, 5, 3] := by
  obtain ⟨_, disk', b, _, _, disk'', closed, content⟩ :=
    @header_patched (fun _ => some [7]) "a" .append 0 [0] [5] [1, 2] [3] (by decide) (by decide) (by decide)
      rfl (by decide)
  exact ⟨b, disk', disk'', closed, content⟩

end BinaryFileStream
end Celestite
