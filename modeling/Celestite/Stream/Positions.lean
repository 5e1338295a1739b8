import Celestite.Sequential.Writes
import Celestite.Stream.Bounds

/-!
# The cursor is a position in a list of bytes

Each call does exactly what its target or its size says, or throws and changes nothing. So what
is read is what was last written there.
-/

namespace Celestite.Cursor
open Concurrency Celestite.Sequential

def placed (place : ℤ) (data : List UInt8) : Write UInt8 := ⟨place.toNat, data⟩

/-- `c'` has `data` from `place` on and otherwise the bytes of `c`. -/
structure Replaced (c : Cursor) (place : ℤ) (data : List UInt8) (c' : Cursor) : Prop where
  len : c'.len = c.len
  inside : ∀ i < data.length, c'.bytes[place.toNat + i]? = data[i]?
  outside : ∀ j : ℕ, j < place ∨ place + data.length ≤ j → c'.bytes[j]? = c.bytes[j]?

namespace Call

/-- The position a seek from the current one is to arrive at is a value of `OffsetType`. -/
def Representable (c : Cursor) : Call → Prop
  | seek offset .current => -2 ^ 63 ≤ c.tell + offset ∧ c.tell + offset < 2 ^ 63
  | _ => True

def Exact (overflow : Overflow) (c : Cursor) : Call → Prop
  | seek offset origin =>
    if 0 ≤ c.target offset origin ∧ c.target offset origin ≤ c.len then
      (seek offset origin).perform overflow c = .ok [] { c with pos := c.target offset origin }
    else (seek offset origin).perform overflow c = .threw .seekOutOfRange c
  | read n =>
    if n ≤ c.len - c.tell then
      ∃ data, (read n).perform overflow c = .ok data { c with pos := c.tell + n } ∧ data.length = n ∧
        ∀ i < n, data[i]? = c.bytes[c.tell.toNat + i]?
    else (read n).perform overflow c = .threw .readOverflow c
  | write data =>
    if data.length ≤ c.len - c.tell then
      ∃ c', (write data).perform overflow c = .ok [] c' ∧ c'.tell = c.tell + data.length ∧
        c.Replaced c.tell data c'
    else (write data).perform overflow c = .threw .writeOverflow c

end Call

section
variable {overflow : Overflow} {c : Cursor} {call : Call} {data : List UInt8} {bytes : List UInt8}
  {offset : ℤ} {origin : SeekFrom}

theorem spliced_eq_onto : c.spliced data = (placed c.pos data).onto c.bytes := rfl

theorem placed_fits {place : ℤ} (nonneg : 0 ≤ place) (room : place + data.length ≤ c.len) :
    (placed place data).Fits c.bytes.length := by
  unfold len at room
  show place.toNat + data.length ≤ c.bytes.length
  omega

theorem replaced_onto {place : ℤ} (nonneg : 0 ≤ place) (room : place + data.length ≤ c.len) (pos : ℤ) :
    c.Replaced place data ⟨(placed place data).onto c.bytes, pos⟩ := by
  have fits := placed_fits nonneg room
  refine ⟨?_, ?_, ?_⟩
  · rw [len, len, Write.length_onto fits]
  · intro i inside
    exact Write.onto_inside fits inside
  · intro j outside
    apply Write.onto_outside fits
    rintro ⟨after, before⟩
    have after : place.toNat ≤ j := after
    have before : j < place.toNat + data.length := before
    omega

theorem take_rest_cell {n i : ℕ} (inside : i < n) : (c.rest.take n)[i]? = c.bytes[c.pos.toNat + i]? := by
  rw [List.getElem?_take_of_lt inside, rest, List.getElem?_drop]

theorem seek_exact (valid : c.Valid) (typed : (Call.seek offset origin).Typed)
    (value : ¬(origin = .current ∧ 2 ^ 63 ≤ c.tell + offset)) :
    (Call.seek offset origin).Exact overflow c := by
  obtain ⟨low, high⟩ := typed
  have value : origin = .current → c.pos + offset < 2 ^ 63 := by
    intro current
    by_contra past
    exact value ⟨current, by rw [tell]; omega⟩
  have result : seek overflow offset origin c = _ := seek_run valid low high value
  rw [Call.Exact]
  split_ifs at result ⊢ with inside
  · rw [Call.perform, Program.bind_ok result, Program.pure_run]
  · rw [Call.perform, Program.bind_threw result]

theorem read_exact (valid : c.Valid) {n : ℕ} (small : n < 2 ^ 63) : (Call.read n).Exact overflow c := by
  rw [Call.Exact, Call.perform, tell]
  split_ifs with room
  · have fits : c.pos + n ≤ c.len := by omega
    exact ⟨c.rest.take n, read_fits valid fits, length_take_rest valid fits, fun i => take_rest_cell⟩
  · exact read_throws (by omega) small

theorem read_inv (valid : c.Valid) {n : ℕ} (small : n < 2 ^ 63) {c' : Cursor}
    (reads : read n c = .ok data c') : data = c.rest.take n ∧ c.pos + n ≤ c.len := by
  by_cases room : c.pos + n ≤ c.len
  · rw [read_fits valid room] at reads
    injection reads with same
    exact ⟨same.symm, room⟩
  · rw [read_throws (by omega) small] at reads
    contradiction

theorem write_exact (valid : c.Valid) (small : data.length < 2 ^ 63) :
    (Call.write data).Exact overflow c := by
  rw [Call.Exact, Call.perform, tell]
  split_ifs with room
  · have fits : c.pos + data.length ≤ c.len := by omega
    refine ⟨⟨c.spliced data, c.pos + data.length⟩, ?_, rfl, ?_⟩
    · rw [Program.bind_ok (write_fits valid fits), Program.pure_run]
    · rw [spliced_eq_onto]
      exact replaced_onto valid.nonneg fits _
  · rw [Program.bind_threw (write_throws (by omega) small)]

theorem call_exact (valid : c.Valid) (typed : call.Typed) (small : call.size < 2 ^ 63)
    (value : call.Representable c) : call.Exact overflow c := by
  cases call with
  | seek offset origin =>
    apply seek_exact valid typed
    rintro ⟨rfl, past⟩
    exact absurd value.2 (by omega)
  | read n => exact read_exact valid small
  | write data => exact write_exact valid small

end

/-! ### Seeking -/

section
variable {c : Cursor} {call : Call} {bytes : List UInt8} {offset : ℤ} {origin : SeekFrom}

/-- A call that did something undefined has ended the run, so the position is in the buffer
whatever the calls were. -/
theorem typed_valid {overflow : Overflow} (small : bytes.length < 2 ^ 63)
    (reached : (system overflow bytes).Reaches (fun _ call => call.Typed) c) :
    c.Valid ∧ c.len = bytes.length := by
  apply reached.invariant
  · exact ⟨⟨le_rfl, Int.natCast_nonneg _, by simp only [system, len]; omega⟩, rfl⟩
  · rintro s call s' - ⟨valid, kept⟩ typed taken
    rcases Nat.lt_or_ge call.size (2 ^ 63) with lower | large
    · obtain ⟨valid', kept'⟩ := step_valid valid typed lower taken
      exact ⟨valid', kept'.trans kept⟩
    · have faulted : call.perform overflow s = .undefined .outsideBuffer :=
        perform_large valid typed large
      simp [system, faulted] at taken

theorem seek_faults (valid : c.Valid) (high : offset < 2 ^ 63) (past : 2 ^ 63 ≤ c.tell + offset) :
    (Call.seek offset .current).perform .undefined c = .undefined .signedOverflow := by
  have faulted : seek .undefined offset .current c = _ := seek_past valid high past
  rw [Call.perform, Program.bind_undefined faulted]

/-- Seeking from the current position adds before it checks. -/
theorem seek_exact_iff (small : bytes.length < 2 ^ 63)
    (reached : (system .undefined bytes).Reaches (fun _ call => call.Typed) c)
    (typed : (Call.seek offset origin).Typed) :
    (Call.seek offset origin).Exact .undefined c ↔ ¬(origin = .current ∧ 2 ^ 63 ≤ c.tell + offset) := by
  obtain ⟨valid, -⟩ := typed_valid small reached
  constructor
  · rintro exactly ⟨rfl, past⟩
    have faulted := seek_faults valid typed.2 past
    rw [Call.Exact, faulted] at exactly
    split_ifs at exactly
  · exact seek_exact valid typed

theorem reaches_end_one :
    (system .undefined [7]).Reaches (fun _ call => call.Typed) { bytes := [7], pos := 1 } := by
  have valid : Cursor.Valid { bytes := [7] } := ⟨by decide, by decide, by decide⟩
  have typed : (Call.read 1).Typed := by simp [Call.Typed]
  have reads : read 1 _ = _ := read_fits valid (by decide : (0 : ℤ) + (1 : ℕ) ≤ 1)
  have taken : (system .undefined [7]).step { bytes := [7] } (.read 1) = some { bytes := [7], pos := 1 } := by
    simp only [system]
    rw [Call.perform, reads]
    rfl
  exact .step .init typed taken

theorem typed_largest : (Call.seek (2 ^ 63 - 1) .current).Typed := ⟨by decide, by decide⟩

/-- From the end of a buffer of one byte the largest offset is too large, one less is not. -/
theorem seek_exact_iff_one :
    ¬(Call.seek (2 ^ 63 - 1) .current).Exact .undefined { bytes := [7], pos := 1 } ∧
      (Call.seek (2 ^ 63 - 2) .current).Exact .undefined { bytes := [7], pos := 1 } := by
  have typed : (Call.seek (2 ^ 63 - 2) .current).Typed := ⟨by decide, by decide⟩
  constructor
  · intro exactly
    exact (seek_exact_iff (by decide) reaches_end_one typed_largest).mp exactly ⟨rfl, by decide⟩
  · exact (seek_exact_iff (by decide) reaches_end_one typed).mpr (by decide)

theorem seek_overflows : ¬∀ bytes : List UInt8, bytes.length < 2 ^ 63 →
    ∀ c, (system .undefined bytes).Reaches (fun _ call => call.Typed) c →
      ∀ offset origin, (Call.seek offset origin).Typed → (Call.seek offset origin).Exact .undefined c := by
  intro claimed
  obtain ⟨valid, -⟩ := typed_valid (by decide) reaches_end_one
  have exactly := claimed [7] (by decide) _ reaches_end_one _ _ typed_largest
  have faulted := seek_faults valid typed_largest.2 (by decide)
  rw [Call.Exact, faulted] at exactly
  split_ifs at exactly

end

/-! ### What is read -/

/-- A cursor, and what has been written through it so far. -/
structure Recorded where
  cursor : Cursor
  wrote : List (Write UInt8) := []

def Call.writes (c : Cursor) : Call → List (Write UInt8)
  | seek _ _ | read _ => []
  | write data => [placed c.tell data]

/-- `tell` reads the position and changes nothing, so it is no action. -/
def recorded (overflow : Overflow) (bytes : List UInt8) : Lts Recorded Call where
  init := { cursor := { bytes := bytes } }
  step r call :=
    match call.perform overflow r.cursor with
    | .ok _ c' => some { cursor := c', wrote := r.wrote ++ call.writes r.cursor }
    | .threw _ c' => some { r with cursor := c' }
    | .undefined _ => none

/-- The arguments have their types, the size is in the lower half and the sum has a value. -/
def Allowed (r : Recorded) (call : Call) : Prop :=
  call.Typed ∧ call.size < 2 ^ 63 ∧ call.Representable r.cursor

/-- The bytes are the first ones with the writes so far. -/
structure Tracks (bytes : List UInt8) (r : Recorded) : Prop where
  valid : r.cursor.Valid
  len : r.cursor.len = bytes.length
  fits : ∀ w ∈ r.wrote, w.Fits bytes.length
  bytes : r.cursor.bytes = Write.all r.wrote bytes

section
variable {overflow : Overflow} {bytes : List UInt8} {r r' : Recorded} {call : Call}

theorem recorded_ok {data : List UInt8} {c' : Cursor} (done : call.perform overflow r.cursor = .ok data c') :
    (recorded overflow bytes).step r call = some ⟨c', r.wrote ++ call.writes r.cursor⟩ := by
  simp only [recorded, done]

theorem recorded_threw {e : StreamIoError} {c' : Cursor}
    (threw : call.perform overflow r.cursor = .threw e c') :
    (recorded overflow bytes).step r call = some { r with cursor := c' } := by
  simp only [recorded, threw]

theorem tracks_init (small : bytes.length < 2 ^ 63) : Tracks bytes (recorded overflow bytes).init where
  valid := ⟨le_rfl, Int.natCast_nonneg _, by simp only [recorded, len]; omega⟩
  len := rfl
  fits := by simp [recorded]
  bytes := rfl

/-- Throwing, a call changes nothing; returning, it leaves the bytes with what it writes. -/
theorem perform_cases {c : Cursor} (valid : c.Valid) (typed : call.Typed) (small : call.size < 2 ^ 63)
    (value : call.Representable c) :
    (∃ e, call.perform overflow c = .threw e c) ∨
      ∃ data pos, call.perform overflow c = .ok data ⟨Write.all (call.writes c) c.bytes, pos⟩ ∧
        Cursor.Valid ⟨Write.all (call.writes c) c.bytes, pos⟩ ∧
        ∀ w ∈ call.writes c, w.Fits c.bytes.length := by
  cases call with
  | seek offset origin =>
    have exactly : (Call.seek offset origin).Exact overflow c := call_exact valid typed small value
    rw [Call.Exact] at exactly
    split_ifs at exactly with inside
    · exact .inr ⟨[], _, exactly, ⟨inside.1, inside.2, valid.small⟩, by simp [Call.writes]⟩
    · exact .inl ⟨_, exactly⟩
  | read n =>
    by_cases room : c.pos + n ≤ c.len
    · refine .inr ⟨c.rest.take n, c.pos + n, ?_, valid.moved room, by simp [Call.writes]⟩
      rw [Call.perform, read_fits valid room]
      rfl
    · refine .inl ⟨.readOverflow, ?_⟩
      rw [Call.perform, read_throws (n := n) (by omega) small]
  | write data =>
    by_cases room : c.pos + data.length ≤ c.len
    · refine .inr ⟨[], c.pos + data.length, ?_, valid.wrote room, ?_⟩
      · rw [Call.perform, Program.bind_ok (write_fits valid room), Program.pure_run]
        rfl
      · intro w mem
        obtain rfl := List.mem_singleton.mp mem
        exact placed_fits valid.nonneg room
    · refine .inl ⟨.writeOverflow, ?_⟩
      rw [Call.perform, Program.bind_threw (write_throws (by omega) small)]

theorem Tracks.step (tracks : Tracks bytes r) (allowed : Allowed r call)
    (taken : (recorded overflow bytes).step r call = some r') : Tracks bytes r' := by
  obtain ⟨typed, small, value⟩ := allowed
  rcases @perform_cases overflow _ _ tracks.valid typed small value with
    ⟨e, threw⟩ | ⟨data, pos, done, valid, fits⟩
  · rw [recorded_threw threw] at taken
    obtain rfl := Option.some.inj taken
    exact tracks
  · rw [recorded_ok done] at taken
    obtain rfl := Option.some.inj taken
    have same : r.cursor.bytes.length = bytes.length := Int.ofNat_inj.mp tracks.len
    refine ⟨valid, ?_, ?_, ?_⟩
    · rw [Cursor.len, Write.length_all fits, same]
    · intro w mem
      rcases List.mem_append.mp mem with earlier | new
      · exact tracks.fits w earlier
      · exact same ▸ fits w new
    · rw [Write.all_append, ← tracks.bytes]

theorem tracks_of_reaches (small : bytes.length < 2 ^ 63)
    (reached : (recorded overflow bytes).Reaches Allowed r) : Tracks bytes r := by
  apply reached.invariant
  · exact tracks_init small
  · intro s call s' _ tracks allowed taken
    exact tracks.step allowed taken

/-- In every run each call is exact, and what is read is what was last written there. -/
theorem refines_positions (small : bytes.length < 2 ^ 63)
    (reached : (recorded overflow bytes).Reaches Allowed r) :
    (0 ≤ r.cursor.tell ∧ r.cursor.tell ≤ r.cursor.len ∧ r.cursor.len = bytes.length) ∧
    (∀ call, Allowed r call → call.Exact overflow r.cursor) ∧
    ∀ n data c', n < 2 ^ 63 → read n r.cursor = .ok data c' → ∀ i < n,
      data[i]? = (Write.last r.wrote (r.cursor.tell.toNat + i)).or bytes[r.cursor.tell.toNat + i]? := by
  have tracks := tracks_of_reaches small reached
  refine ⟨⟨tracks.valid.nonneg, tracks.valid.le_len, tracks.len⟩, ?_, ?_⟩
  · intro call ⟨typed, small, value⟩
    exact call_exact tracks.valid typed small value
  · intro n data c' small reads i inside
    obtain ⟨rfl, room⟩ := read_inv tracks.valid small reads
    rw [take_rest_cell inside, tracks.bytes, Write.all_cell tracks.fits, tell]

/-- The first of three bytes is written, then read again together with the second. -/
theorem refines_positions_three : ∃ data, read 2 ⟨[7, 2, 3], 0⟩ = .ok data ⟨[7, 2, 3], 2⟩ ∧
    data[0]? = some 7 ∧ data[1]? = some 2 := by
  have valid : Cursor.Valid { bytes := [1, 2, 3] } := ⟨by decide, by decide, by decide⟩
  have wrote : (Call.write [7]).perform .wraps { bytes := [1, 2, 3] } = .ok [] ⟨[7, 2, 3], 1⟩ := by
    rw [Call.perform, Program.bind_ok (write_fits valid (by decide)), Program.pure_run]
    rfl
  have valid' : Cursor.Valid ⟨[7, 2, 3], 1⟩ := ⟨by decide, by decide, by decide⟩
  have sought : (Call.seek 0 .beginning).perform .wraps ⟨[7, 2, 3], 1⟩ = .ok [] ⟨[7, 2, 3], 0⟩ :=
    @seek_exact .wraps _ 0 .beginning valid' ⟨by decide, by decide⟩ (by decide)
  have allowed : Allowed { cursor := { bytes := [1, 2, 3] } } (.write [7]) :=
    ⟨by simp [Call.Typed], by decide, trivial⟩
  have allowed' : Allowed ⟨⟨[7, 2, 3], 1⟩, [⟨0, [7]⟩]⟩ (.seek 0 .beginning) :=
    ⟨⟨by decide, by decide⟩, by decide, trivial⟩
  have reached : (recorded .wraps [1, 2, 3]).Reaches Allowed ⟨⟨[7, 2, 3], 0⟩, [⟨0, [7]⟩]⟩ :=
    .step (.step .init allowed (recorded_ok wrote)) allowed' (recorded_ok sought)
  obtain ⟨-, -, reads⟩ := refines_positions (by decide) reached
  have valid'' : Cursor.Valid ⟨[7, 2, 3], 0⟩ := ⟨by decide, by decide, by decide⟩
  have done : read 2 _ = _ := read_fits valid'' (by decide)
  exact ⟨_, done, reads 2 _ _ (by decide) done 0 (by decide), reads 2 _ _ (by decide) done 1 (by decide)⟩

end
end Celestite.Cursor
