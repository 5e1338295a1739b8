import Celestite.Stream.Numeric
import Celestite.Stream.Positions

/-!
# Patching

`WriteStream::patch_bytes` and `WriteStream::patch_num` over a memory cursor: mark the position,
seek, write, seek back.
-/

namespace Celestite
open Celestite.Sequential

def patchBytes (overflow : Overflow) (offset : ℤ) (data : List UInt8) : Cursor.Op Unit := do
  let mark ← Program.read Cursor.tell
  Cursor.seek overflow offset .beginning
  Cursor.write data
  Cursor.seek overflow mark .beginning

def patchNum (overflow : Overflow) (host endian : Endian) (f : Field) (offset : ℤ)
    (src : Object f.type) : Cursor.Op Unit := do
  let mark ← Program.read Cursor.tell
  Cursor.seek overflow offset .beginning
  writeNum host endian f src
  Cursor.seek overflow mark .beginning

/-- What the call leaves when it has returned or thrown: the position, and the bytes if it has
thrown. -/
structure Undisturbed (c : Cursor) (p : Cursor.Op Unit) : Prop where
  defined : ∀ {fault}, p c ≠ .undefined fault
  returned : ∀ {c'}, p c = .ok () c' → c'.tell = c.tell
  thrown : ∀ {e c'}, p c = .threw e c' → c'.tell = c.tell ∧ c'.bytes = c.bytes

theorem Undisturbed.of_ok {c c' : Cursor} {p : Cursor.Op Unit} (done : p c = .ok () c')
    (back : c'.tell = c.tell) : Undisturbed c p := by
  refine ⟨by simp [done], ?_, by simp [done]⟩
  intro c'' again
  rw [done] at again
  injection again with _ same
  rw [← same, back]

theorem undisturbed_of_threw {c c' : Cursor} {p : Cursor.Op Unit} {e} (threw : p c = .threw e c') :
    Undisturbed c p ↔ c'.tell = c.tell ∧ c'.bytes = c.bytes := by
  constructor
  · intro undisturbed
    exact undisturbed.thrown threw
  · intro unmoved
    refine ⟨by simp [threw], by simp [threw], ?_⟩
    intro e' c'' again
    rw [threw] at again
    injection again with _ same
    rw [← same]
    exact unmoved

def Strands (c : Cursor) (offset : ℤ) (n : ℕ) : Prop :=
  0 ≤ offset ∧ offset ≤ c.len ∧ c.len < offset + n ∧ offset ≠ c.tell

section
variable {overflow : Overflow} {c : Cursor} {offset : ℤ} {data : List UInt8}

theorem seek_beginning (valid : c.Valid) (inside : 0 ≤ offset ∧ offset ≤ c.len) :
    Cursor.seek overflow offset .beginning c = .ok () { c with pos := offset } := by
  have small := valid.small
  have result : Cursor.seek overflow offset .beginning c = _ :=
    Cursor.seek_run valid (by omega) (by omega) nofun
  exact result.trans (if_pos inside)

theorem seek_beginning_throws (valid : c.Valid) (low : -2 ^ 63 ≤ offset) (high : offset < 2 ^ 63)
    (outside : ¬(0 ≤ offset ∧ offset ≤ c.len)) :
    Cursor.seek overflow offset .beginning c = .threw .seekOutOfRange c := by
  have result : Cursor.seek overflow offset .beginning c = _ := Cursor.seek_run valid low high nofun
  exact result.trans (if_neg outside)

theorem patch_fits (valid : c.Valid) (nonneg : 0 ≤ offset) (room : offset + data.length ≤ c.len) :
    patchBytes overflow offset data c =
      .ok () { bytes := (Cursor.placed offset data).onto c.bytes, pos := c.pos } := by
  have inside : 0 ≤ offset ∧ offset ≤ c.len := ⟨nonneg, by omega⟩
  have there : Cursor.Valid { c with pos := offset } := ⟨inside.1, inside.2, valid.small⟩
  have replaced := Cursor.replaced_onto nonneg room (offset + data.length)
  have written : Cursor.Valid ⟨(Cursor.placed offset data).onto c.bytes, offset + data.length⟩ :=
    there.wrote room
  have back : 0 ≤ c.pos ∧ c.pos ≤
      Cursor.len ⟨(Cursor.placed offset data).onto c.bytes, offset + data.length⟩ :=
    ⟨valid.nonneg, replaced.len ▸ valid.le_len⟩
  rw [patchBytes, Program.bind_ok (Program.read_run _ c), Program.bind_ok (seek_beginning valid inside),
    Program.bind_ok (Cursor.write_fits there room)]
  exact seek_beginning written back

theorem patch_outside (valid : c.Valid) (low : -2 ^ 63 ≤ offset) (high : offset < 2 ^ 63)
    (outside : ¬(0 ≤ offset ∧ offset ≤ c.len)) :
    patchBytes overflow offset data c = .threw .seekOutOfRange c := by
  rw [patchBytes, Program.bind_ok (Program.read_run _ c),
    Program.bind_threw (seek_beginning_throws valid low high outside)]

/-- The write throws and the position stays where it was to happen. -/
theorem patch_full (valid : c.Valid) (inside : 0 ≤ offset ∧ offset ≤ c.len)
    (full : c.len < offset + data.length) (small : data.length < 2 ^ 63) :
    patchBytes overflow offset data c = .threw .writeOverflow { c with pos := offset } := by
  have throws : Cursor.write data { c with pos := offset } = _ := Cursor.write_throws full small
  rw [patchBytes, Program.bind_ok (Program.read_run _ c), Program.bind_ok (seek_beginning valid inside),
    Program.bind_threw throws]

theorem patch_num_wire {host endian : Endian} {f : Field} (src : Object f.type) :
    patchNum overflow host endian f offset src =
      patchBytes overflow offset (wire endian f (src.number host)) := by
  rw [patchNum, write_num_wire, patchBytes]

theorem patch_bytes_undisturbed (valid : c.Valid) (low : -2 ^ 63 ≤ offset) (high : offset < 2 ^ 63)
    (small : data.length < 2 ^ 63) :
    Undisturbed c (patchBytes overflow offset data) ↔ ¬Strands c offset data.length := by
  by_cases inside : 0 ≤ offset ∧ offset ≤ c.len
  · rcases le_or_gt (offset + data.length) c.len with room | full
    · apply iff_of_true (Undisturbed.of_ok (patch_fits valid inside.1 room) rfl)
      rintro ⟨-, -, full, -⟩
      omega
    · -- the position stays at the offset, which is no harm if it was there before
      rw [undisturbed_of_threw (patch_full valid inside full small)]
      constructor
      · rintro ⟨same, -⟩ ⟨-, -, -, moved⟩
        exact moved same
      · intro stays
        have same : offset = c.tell := by
          by_contra moved
          exact stays ⟨inside.1, inside.2, full, moved⟩
        exact ⟨same, rfl⟩
  · rw [undisturbed_of_threw (patch_outside valid low high inside)]
    refine iff_of_true ⟨rfl, rfl⟩ ?_
    rintro ⟨nonneg, le_len, -⟩
    exact inside ⟨nonneg, le_len⟩

/-- Nothing restores the mark where the write throws. -/
theorem undisturbed_iff (valid : c.Valid) (low : -2 ^ 63 ≤ offset) (high : offset < 2 ^ 63) :
    (∀ data : List UInt8, data.length < 2 ^ 63 →
      (Undisturbed c (patchBytes overflow offset data) ↔ ¬Strands c offset data.length)) ∧
    ∀ (host endian : Endian) (f : Field) (src : Object f.type), f.bytes < 2 ^ 63 →
      (Undisturbed c (patchNum overflow host endian f offset src) ↔ ¬Strands c offset f.bytes) := by
  refine ⟨fun data small => patch_bytes_undisturbed valid low high small, ?_⟩
  intro host endian f src small
  rw [patch_num_wire]
  have emitted : (wire endian f (src.number host)).length = f.bytes := length_wire _ _ _
  have undisturbed := @patch_bytes_undisturbed overflow c offset (wire endian f (src.number host)) valid low
    high (by rw [emitted]; exact small)
  rwa [emitted] at undisturbed

theorem valid_one : Cursor.Valid { bytes := [1] } := ⟨by decide, by decide, by decide⟩

/-- One byte in a buffer of one byte: in its place, and after it. -/
theorem undisturbed_iff_one :
    Undisturbed { bytes := [1] } (patchBytes .wraps 0 [5]) ∧
      ¬Undisturbed { bytes := [1] } (patchBytes .wraps 1 [5]) := by
  obtain ⟨there, -⟩ := @undisturbed_iff .wraps _ 0 valid_one (by decide) (by decide)
  obtain ⟨after, -⟩ := @undisturbed_iff .wraps _ 1 valid_one (by decide) (by decide)
  refine ⟨(there [5] (by decide)).mpr ?_, fun undisturbed => (after [5] (by decide)).mp undisturbed ?_⟩
  · rintro ⟨-, -, full, -⟩
    revert full
    decide
  · exact ⟨by decide, by decide, by decide, by decide⟩

/-- Patching a byte at the end of the buffer throws and leaves the position there. -/
theorem patch_strands : ¬∀ c : Cursor, c.Valid → ∀ offset : ℤ, -2 ^ 63 ≤ offset → offset < 2 ^ 63 →
    ∀ data : List UInt8, data.length < 2 ^ 63 → Undisturbed c (patchBytes .wraps offset data) := by
  intro claimed
  have undisturbed := claimed _ valid_one 1 (by decide) (by decide) [5] (by decide)
  have stranded : patchBytes .wraps 1 [5] _ = _ :=
    patch_full valid_one ⟨by decide, by decide⟩ (by decide) (by decide)
  exact absurd (undisturbed.thrown stranded).1 (by decide)

end

end Celestite
