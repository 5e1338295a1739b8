import Celestite.Sequential.Loop
import Celestite.Stream.Positions

/-!
# Copying between streams

`WriteStream::copy_from` between memory cursors over different buffers, through a buffer of at
most 4 MiB.
-/

namespace Celestite

/-- `in` and `this`. -/
structure Streams where
  source : Cursor
  dest : Cursor
  deriving DecidableEq

namespace Streams

abbrev Op (α : Type) := Program Streams StreamIoError MemoryFault α

def onSource {α : Type} (p : Cursor.Op α) : Op α := p.focus source fun s c => { s with source := c }

def onDest {α : Type} (p : Cursor.Op α) : Op α := p.focus dest fun s c => { s with dest := c }

end Streams

def bufSz (n : ℕ) : ℕ := if n > 4 * 1024 * 1024 then 4 * 1024 * 1024 else n

/-- One read of `n` bytes and one write of them. -/
def transfer (n : ℕ) : Streams.Op Unit := do
  let buf ← Streams.onSource (Cursor.read n)
  Streams.onDest (Cursor.write buf)

def toRead (size n : ℕ) : ℕ := if n > size then size else n

def copyChunk (size n : ℕ) : Streams.Op ℕ := do
  transfer (toRead size n)
  pure (n - toRead size n)

/-- A memory cursor is always open, so the check for that passes. -/
def copyFrom (passes n : ℕ) : Streams → Option (Outcome Streams StreamIoError MemoryFault Unit) :=
  Program.loop (fun n => n > 0) (copyChunk (bufSz n)) passes n

def Streams.moved (m : ℕ) (s : Streams) : Streams where
  source := { s.source with pos := s.source.pos + m }
  dest := ⟨s.dest.spliced (s.source.rest.take m), s.dest.pos + m⟩

/-- The bytes remain in the source and there is room for them in the destination. -/
structure Streams.Fits (n : ℕ) (s : Streams) : Prop where
  source : s.source.Valid
  dest : s.dest.Valid
  reads : s.source.pos + n ≤ s.source.len
  writes : s.dest.pos + n ≤ s.dest.len

section
variable {s : Streams} {size n m k : ℕ}

theorem buf_sz_pos (more : 0 < n) : 0 < bufSz n := by
  unfold bufSz
  split <;> omega

theorem buf_sz_le : bufSz n ≤ 4 * 1024 * 1024 := by
  unfold bufSz
  split <;> omega

theorem to_read_pos (room : 0 < size) (more : 0 < n) : 0 < toRead size n := by
  unfold toRead
  split <;> omega

theorem to_read_le : toRead size n ≤ n ∧ toRead size n ≤ size := by
  unfold toRead
  split <;> omega

/-! ### One transfer -/

theorem read_source (valid : s.source.Valid) (reads : s.source.pos + m ≤ s.source.len) :
    Streams.onSource (Cursor.read m) s =
      .ok (s.source.rest.take m) ⟨{ s.source with pos := s.source.pos + m }, s.dest⟩ :=
  Program.focus_ok (Cursor.read_fits valid reads)

theorem Streams.Fits.length (fits : s.Fits m) : (s.source.rest.take m).length = m :=
  Cursor.length_take_rest fits.source fits.reads

theorem Streams.Fits.room (fits : s.Fits m) :
    s.dest.pos + (s.source.rest.take m).length ≤ s.dest.len := by
  rw [fits.length]
  exact fits.writes

theorem transfer_fits (fits : s.Fits m) : transfer m s = .ok () (s.moved m) := by
  have wrote := Cursor.write_fits fits.dest fits.room
  rw [fits.length] at wrote
  rw [transfer, Program.bind_ok (read_source fits.source fits.reads)]
  exact Program.focus_ok wrote

theorem transfer_drained (short : s.source.len < s.source.pos + m) (small : m < 2 ^ 63) :
    transfer m s = .threw .readOverflow s := by
  have threw : Streams.onSource (Cursor.read m) s = .threw .readOverflow s :=
    Program.focus_threw (Cursor.read_throws short small)
  rw [transfer, Program.bind_threw threw]

theorem transfer_full (valid : s.source.Valid) (reads : s.source.pos + m ≤ s.source.len)
    (full : s.dest.len < s.dest.pos + m) (small : m < 2 ^ 63) :
    transfer m s = .threw .writeOverflow ⟨{ s.source with pos := s.source.pos + m }, s.dest⟩ := by
  have length := Cursor.length_take_rest valid reads
  have threw : Streams.onDest (Cursor.write (s.source.rest.take m))
      ⟨{ s.source with pos := s.source.pos + m }, s.dest⟩ =
        .threw .writeOverflow ⟨{ s.source with pos := s.source.pos + m }, s.dest⟩ :=
    Program.focus_threw (Cursor.write_throws (by rwa [length]) (by rwa [length]))
  rw [transfer, Program.bind_ok (read_source valid reads), threw]

/-! ### Transfers in succession -/

@[simp] theorem Streams.moved_source_pos : (s.moved m).source.pos = s.source.pos + m := rfl

@[simp] theorem Streams.moved_source_len : (s.moved m).source.len = s.source.len := rfl

@[simp] theorem Streams.moved_dest_pos : (s.moved m).dest.pos = s.dest.pos + m := rfl

theorem Streams.moved_zero : s.moved 0 = s := by
  obtain ⟨src, dst⟩ := s
  simp [Streams.moved, Cursor.spliced]

theorem Streams.Fits.mono (fits : s.Fits n) (le : m ≤ n) : s.Fits m where
  source := fits.source
  dest := fits.dest
  reads := by
    have reads := fits.reads
    omega
  writes := by
    have writes := fits.writes
    omega

theorem Streams.Fits.len_moved (fits : s.Fits m) : (s.moved m).dest.len = s.dest.len :=
  congrArg Nat.cast (Cursor.length_spliced fits.dest fits.room)

theorem Streams.Fits.valid_moved (fits : s.Fits m) :
    (s.moved m).source.Valid ∧ (s.moved m).dest.Valid := by
  have wrote := fits.dest.wrote fits.room
  rw [fits.length] at wrote
  exact ⟨fits.source.moved fits.reads, wrote⟩

theorem Streams.Fits.moved_iff (fits : s.Fits m) : (s.moved m).Fits k ↔ s.Fits (m + k) := by
  obtain ⟨source, dest⟩ := fits.valid_moved
  have same := fits.len_moved
  constructor
  · rintro ⟨-, -, reads, writes⟩
    rw [moved_source_pos, moved_source_len] at reads
    rw [moved_dest_pos, same] at writes
    refine ⟨fits.source, fits.dest, ?_, ?_⟩ <;> push_cast <;> omega
  · rintro ⟨-, -, reads, writes⟩
    push_cast at reads writes
    refine ⟨source, dest, ?_, ?_⟩
    · rw [moved_source_pos, moved_source_len]
      omega
    · rw [moved_dest_pos, same]
      omega

theorem Streams.Fits.moved_moved (fits : s.Fits (m + k)) : (s.moved m).moved k = s.moved (m + k) := by
  have first := fits.mono (Nat.le_add_right m k)
  have rest : (s.moved m).source.rest = s.source.rest.drop m := Cursor.rest_moved first.source
  have spliced := Cursor.spliced_spliced first.dest first.room ((s.source.rest.drop m).take k)
  rw [first.length, ← List.take_add] at spliced
  have sum (i : ℤ) : i + m + k = i + (m + k : ℕ) := by
    push_cast
    ring
  unfold Streams.moved at rest ⊢
  simp only [rest, spliced, sum]

/-! ### The loop -/

theorem chunk_fits (fits : s.Fits (toRead size n)) :
    copyChunk size n s = .ok (n - toRead size n) (s.moved (toRead size n)) := by
  rw [copyChunk, Program.bind_ok (transfer_fits fits), Program.pure_run]

/-- However the bytes are divided into chunks, they are transferred as one. -/
theorem copy_fits (fits : s.Fits n) (room : 0 < n → 0 < size) :
    Program.Ends (fun n => n > 0) (copyChunk size) n s (.ok () (s.moved n)) := by
  induction n using Nat.strong_induction_on generalizing s with
  | _ n ih =>
    rcases Nat.eq_zero_or_pos n with rfl | more
    · rw [Streams.moved_zero]
      exact Program.ends_done rfl
    · have chunk := chunk_fits (fits.mono (@to_read_le size n).1)
      have taken := to_read_pos (room more) more
      obtain ⟨le, -⟩ := @to_read_le size n
      generalize toRead size n = m at chunk taken le
      obtain ⟨k, rfl⟩ := Nat.exists_eq_add_of_le le
      rw [Nat.add_sub_cancel_left] at chunk
      have later : (s.moved m).Fits k := (fits.mono le).moved_iff.mpr fits
      have ended := ih k (by omega) later fun _ => room more
      rw [fits.moved_moved] at ended
      exact Program.ends_next (by simpa using more) chunk ended

/-- The first `k` bytes are copied, `lost` further ones are read and not written. -/
def Streams.stopped (k lost : ℕ) (s : Streams) : Streams where
  source := { s.source with pos := s.source.pos + k + lost }
  dest := (s.moved k).dest

theorem Streams.stopped_zero (lost : ℕ) :
    s.stopped 0 lost = ⟨{ s.source with pos := s.source.pos + lost }, s.dest⟩ := by
  rw [Streams.stopped, Streams.moved_zero, Nat.cast_zero, add_zero]

theorem Streams.Fits.stopped_moved {lost : ℕ} (fits : s.Fits (m + k)) :
    (s.moved m).stopped k lost = s.stopped (m + k) lost := by
  have sum : s.source.pos + m + k = s.source.pos + (m + k : ℕ) := by
    push_cast
    ring
  unfold Streams.stopped
  rw [fits.moved_moved, moved_source_pos, sum]
  rfl

theorem chunk_threw {e : StreamIoError} {s' : Streams} (threw : transfer (toRead size n) s = .threw e s') :
    copyChunk size n s = .threw e s' := by
  rw [copyChunk, Program.bind_threw threw]

/-- What cannot be transferred is copied up to a chunk that cannot. -/
theorem copy_stops (source : s.source.Valid) (dest : s.dest.Valid) (small : n < 2 ^ 63)
    (unfit : ¬s.Fits n) (room : 0 < n → 0 < size) :
    ∃ k lost e, Program.Ends (fun n => n > 0) (copyChunk size) n s (.threw e (s.stopped k lost)) ∧
      s.Fits k ∧ lost ≤ size ∧
      (0 < lost → e = .writeOverflow ∧ s.dest.len < s.dest.pos + n) := by
  induction n using Nat.strong_induction_on generalizing s with
  | _ n ih =>
    have le_len := source.le_len
    have le_len' := dest.le_len
    have none : s.Fits 0 := ⟨source, dest, by simpa using le_len, by simpa using le_len'⟩
    have more : 0 < n := by
      rcases Nat.eq_zero_or_pos n with rfl | more
      · exact absurd none unfit
      · exact more
    have goes : decide (n > 0) = true := by simpa using more
    have taken := to_read_pos (room more) more
    obtain ⟨le, le_size⟩ := @to_read_le size n
    have small' : toRead size n < 2 ^ 63 := by omega
    rcases lt_or_ge s.source.len (s.source.pos + toRead size n) with short | reads
    · have chunk := chunk_threw (transfer_drained short small')
      refine ⟨0, 0, .readOverflow, ?_, none, Nat.zero_le _, nofun⟩
      rw [Streams.stopped_zero, Nat.cast_zero, add_zero]
      exact Program.ends_threw goes chunk
    rcases lt_or_ge s.dest.len (s.dest.pos + toRead size n) with full | writes
    · have chunk := chunk_threw (transfer_full source reads full small')
      refine ⟨0, toRead size n, .writeOverflow, ?_, none, le_size, fun _ => ⟨rfl, by omega⟩⟩
      rw [Streams.stopped_zero]
      exact Program.ends_threw goes chunk
    · have first : s.Fits (toRead size n) := ⟨source, dest, reads, writes⟩
      have chunk := chunk_fits first
      obtain ⟨source', dest'⟩ := first.valid_moved
      have same := first.len_moved
      generalize toRead size n = m at *
      obtain ⟨rest, rfl⟩ := Nat.exists_eq_add_of_le le
      rw [Nat.add_sub_cancel_left] at chunk
      obtain ⟨k, lost, e, ended, fits, le_size, cause⟩ := ih rest (by omega) source' dest' (by omega)
        (fun fits => unfit (first.moved_iff.mp fits)) fun _ => room more
      have whole := first.moved_iff.mp fits
      refine ⟨m + k, lost, e, ?_, whole, le_size, ?_⟩
      · rw [← whole.stopped_moved]
        exact Program.ends_next goes chunk ended
      · intro some
        obtain ⟨written, full⟩ := cause some
        rw [same, Streams.moved_dest_pos] at full
        refine ⟨written, ?_⟩
        push_cast
        omega

/-! ### The copy -/

def Copies (n : ℕ) (s : Streams) (r : Outcome Streams StreamIoError MemoryFault Unit) : Prop :=
  ∃ passes, copyFrom passes n s = some r

/-- The next `n` bytes of the source are at the destination, and both positions after them. -/
structure Copied (n : ℕ) (s s' : Streams) : Prop where
  source : s'.source = { s.source with pos := s.source.tell + n }
  tell : s'.dest.tell = s.dest.tell + n
  length : (s.source.rest.take n).length = n
  replaced : s.dest.Replaced s.dest.tell (s.source.rest.take n) s'.dest

/-- The first bytes of the source are at the destination, as many as its position has advanced. The
source's has advanced by as much, or by up to a buffer more where the destination was full. -/
structure CopyStopped (n : ℕ) (s : Streams) (e : StreamIoError) (s' : Streams) : Prop where
  source : s'.source.bytes = s.source.bytes
  copied : ∃ data, data <+: s.source.rest ∧ s'.dest.tell = s.dest.tell + data.length ∧
    s.dest.Replaced s.dest.tell data s'.dest
  advanced : s'.source.tell - s.source.tell = s'.dest.tell - s.dest.tell ∨
    e = .writeOverflow ∧ s.dest.len - s.dest.tell < n ∧
      s'.dest.tell - s.dest.tell < s'.source.tell - s.source.tell ∧
      s'.source.tell - s.source.tell ≤ s'.dest.tell - s.dest.tell + 4 * 1024 * 1024

theorem Streams.Fits.copied (fits : s.Fits n) : Copied n s (s.moved n) where
  source := rfl
  tell := rfl
  length := fits.length
  replaced := Cursor.replaced_onto fits.dest.nonneg fits.room _

theorem Streams.Fits.stopped {lost : ℕ} {e : StreamIoError} (fits : s.Fits k) (le : lost ≤ bufSz n)
    (cause : 0 < lost → e = .writeOverflow ∧ s.dest.len < s.dest.pos + n) :
    CopyStopped n s e (s.stopped k lost) where
  source := rfl
  copied := by
    have tell : (s.stopped k lost).dest.tell = s.dest.tell + k := rfl
    refine ⟨s.source.rest.take k, List.take_prefix _ _, ?_, fits.copied.replaced⟩
    rw [fits.length, tell]
  advanced := by
    have bound := @buf_sz_le n
    have tell : (s.stopped k lost).dest.tell = s.dest.tell + k := rfl
    have tell' : (s.stopped k lost).source.tell = s.source.tell + k + lost := rfl
    rw [tell, tell']
    rcases Nat.eq_zero_or_pos lost with rfl | some
    · left
      push_cast
      ring
    · obtain ⟨written, full⟩ := cause some
      refine .inr ⟨written, ?_, ?_, ?_⟩
      · rw [Cursor.tell]
        omega
      · omega
      · omega

/-- Whatever the chunks, the copy is one transfer, or stops where one of the streams ends. -/
theorem copy_from_chunks (source : s.source.Valid) (dest : s.dest.Valid) (small : n < 2 ^ 63) :
    ∃ r, (∀ r', Copies n s r' ↔ r' = r) ∧
      (n ≤ s.source.len - s.source.tell ∧ n ≤ s.dest.len - s.dest.tell →
        r = transfer n s ∧ ∃ s', r = .ok () s' ∧ Copied n s s') ∧
      (¬(n ≤ s.source.len - s.source.tell ∧ n ≤ s.dest.len - s.dest.tell) →
        ∃ e s', r = .threw e s' ∧ CopyStopped n s e s') := by
  have fits_iff : s.Fits n ↔ n ≤ s.source.len - s.source.tell ∧ n ≤ s.dest.len - s.dest.tell := by
    unfold Cursor.tell
    constructor
    · rintro ⟨-, -, reads, writes⟩
      omega
    · rintro ⟨reads, writes⟩
      exact ⟨source, dest, by omega, by omega⟩
  have only {r} (ended : Copies n s r) (r') : Copies n s r' ↔ r' = r :=
    ⟨fun ended' => Program.Ends.unique ended' ended, fun same => same ▸ ended⟩
  rw [← fits_iff]
  by_cases fits : s.Fits n
  · refine ⟨_, only (copy_fits fits buf_sz_pos), fun _ => ⟨?_, _, rfl, fits.copied⟩, fun unfit => ?_⟩
    · exact (transfer_fits fits).symm
    · exact absurd fits unfit
  · obtain ⟨k, lost, e, ended, first, le, cause⟩ := copy_stops source dest small fits buf_sz_pos
    refine ⟨_, only ended, fun fits' => absurd fits' fits, fun _ => ⟨e, _, rfl, ?_⟩⟩
    exact first.stopped le cause

/-- Two of three bytes into a buffer of two, then the third. -/
theorem copy_from_chunks_three :
    (∃ s', Copies 2 ⟨{ bytes := [1, 2, 3] }, { bytes := [0, 0] }⟩ (.ok () s')) ∧
      ∃ e s', Copies 1 ⟨⟨[1, 2, 3], 2⟩, ⟨[1, 2], 2⟩⟩ (.threw e s') := by
  constructor
  · obtain ⟨r, only, fits, -⟩ := @copy_from_chunks ⟨{ bytes := [1, 2, 3] }, { bytes := [0, 0] }⟩ 2
      ⟨by decide, by decide, by decide⟩ ⟨by decide, by decide, by decide⟩ (by decide)
    obtain ⟨-, s', done, -⟩ := fits ⟨by decide, by decide⟩
    exact ⟨s', (only _).mpr done.symm⟩
  · obtain ⟨r, only, -, unfit⟩ := @copy_from_chunks ⟨⟨[1, 2, 3], 2⟩, ⟨[1, 2], 2⟩⟩ 1
      ⟨by decide, by decide, by decide⟩ ⟨by decide, by decide, by decide⟩ (by decide)
    obtain ⟨e, s', threw, -⟩ := unfit (by decide)
    exact ⟨e, s', (only _).mpr threw.symm⟩

end
end Celestite
