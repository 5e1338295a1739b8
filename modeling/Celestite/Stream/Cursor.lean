import Mathlib.Algebra.Order.Ring.Int
import Mathlib.Tactic.Ring
import Celestite.Sequential.Program

/-!
# The memory cursor

`clst::Cursor`: a position in a buffer of bytes, with `seek`, `tell`, `read` and `write`. Offsets
are signed 64-bit numbers, sizes unsigned ones.
-/

namespace Celestite

/-- The buffer from `begin_` on, and `cursor_ - begin_`. -/
structure Cursor where
  bytes : List UInt8
  pos : ℤ := 0
  deriving DecidableEq

inductive SeekFrom where
  | beginning
  | current
  | ending
  deriving DecidableEq

/-- What the methods of a cursor throw. -/
inductive StreamIoError where
  | seekOutOfRange
  | readOverflow
  | writeOverflow
  deriving DecidableEq

def StreamIoError.what : StreamIoError → String
  | seekOutOfRange => "Memory cursor seek out of range"
  | readOverflow => "Memory cursor read overflow"
  | writeOverflow => "Memory cursor write overflow"

inductive MemoryFault where
  /-- `memcpy` from or to bytes outside the buffer. -/
  | outsideBuffer
  /-- Bytes outside a variable. -/
  | outsideObject
  /-- Signed arithmetic whose result its type does not have. -/
  | signedOverflow
  deriving DecidableEq

/-- What becomes of a signed sum its type does not have: the language leaves it undefined,
compilers can be told to let it wrap. -/
inductive Overflow where
  | wraps
  | undefined
  deriving DecidableEq

/-- The value of a signed 64-bit type congruent to `n`. -/
def signed (n : ℤ) : ℤ := (n + 2 ^ 63) % 2 ^ 64 - 2 ^ 63

theorem signed_of_small {n : ℤ} (low : -2 ^ 63 ≤ n) (high : n < 2 ^ 63) : signed n = n := by
  unfold signed
  omega

theorem signed_of_large {n : ℤ} (low : 2 ^ 63 ≤ n) (high : n < 2 ^ 64) : signed n = n - 2 ^ 64 := by
  unfold signed
  omega

namespace Cursor

abbrev Op (α : Type) := Program Cursor StreamIoError MemoryFault α

def len (c : Cursor) : ℤ := c.bytes.length

def tell (c : Cursor) : ℤ := c.pos

def rest (c : Cursor) : List UInt8 := c.bytes.drop c.pos.toNat

def spliced (c : Cursor) (data : List UInt8) : List UInt8 :=
  c.bytes.take c.pos.toNat ++ data ++ c.bytes.drop (c.pos.toNat + data.length)

def int64 (overflow : Overflow) (n : ℤ) : Op ℤ :=
  match overflow with
  | .wraps => pure (signed n)
  | .undefined => do
    Program.require (signed n = n) .signedOverflow
    pure n

def seek (overflow : Overflow) (offset : ℤ) (origin : SeekFrom) : Op Unit := do
  let c ← Program.read id
  match origin with
  | .beginning =>
    if offset > c.len ∨ offset < 0 then Program.throw .seekOutOfRange
    else Program.update fun c => { c with pos := offset }
  | .current =>
    let pos ← int64 overflow (c.pos + offset)
    if pos > c.len ∨ pos < 0 then Program.throw .seekOutOfRange
    else Program.update fun c => { c with pos := c.pos + offset }
  | .ending =>
    let least ← int64 overflow (-c.len)
    if offset < least ∨ offset > 0 then Program.throw .seekOutOfRange
    else Program.update fun c => { c with pos := c.len + offset }

/-- The check `static_cast<ptrdiff_t>(n) > len_ - (cursor_ - begin_)`, then `memcpy` of `n` bytes
at the position. -/
def access (n : ℕ) (error : StreamIoError) : Op Unit := do
  let c ← Program.read id
  if signed n > c.len - c.pos then Program.throw error
  else Program.require (0 ≤ c.pos ∧ c.pos + n ≤ c.len) .outsideBuffer

def read (n : ℕ) : Op (List UInt8) := do
  let c ← Program.read id
  access n .readOverflow
  Program.update fun c => { c with pos := c.pos + n }
  pure (c.rest.take n)

def write (data : List UInt8) : Op Unit := do
  access data.length .writeOverflow
  Program.update fun c => { bytes := c.spliced data, pos := c.pos + data.length }

/-- The position is in the buffer or at its end. -/
structure Valid (c : Cursor) : Prop where
  nonneg : 0 ≤ c.pos
  le_len : c.pos ≤ c.len
  small : c.len < 2 ^ 63

section
variable {c : Cursor} {n : ℕ} {error : StreamIoError} {data : List UInt8}

theorem access_fits (valid : c.Valid) (room : c.pos + n ≤ c.len) : access n error c = .ok () c := by
  have nonneg := valid.nonneg
  have small := valid.small
  have unchanged : signed n = n := signed_of_small (by omega) (by omega)
  have inside : ¬signed n > c.len - c.pos := by omega
  have touched : 0 ≤ c.pos ∧ c.pos + n ≤ c.len := ⟨nonneg, room⟩
  simp [access, inside, Program.require_run touched]

theorem access_throws (full : c.len < c.pos + n) (small : n < 2 ^ 63) :
    access n error c = .threw error c := by
  have unchanged : signed n = n := signed_of_small (by omega) (by omega)
  have outside : signed n > c.len - c.pos := by omega
  simp [access, outside]

/-- The check lets every size of the upper half pass. -/
theorem access_outside (valid : c.Valid) (large : 2 ^ 63 ≤ n) (typed : n < 2 ^ 64) :
    access n error c = .undefined .outsideBuffer := by
  have le_len := valid.le_len
  have small := valid.small
  have nonneg := valid.nonneg
  have negative : signed n = n - 2 ^ 64 := signed_of_large (by omega) (by omega)
  have passes : ¬signed n > c.len - c.pos := by omega
  have missed : ¬(0 ≤ c.pos ∧ c.pos + n ≤ c.len) := by omega
  simp only [access, Program.bind_run, Program.read_run, id, if_neg passes]
  exact if_neg missed

theorem read_fits (valid : c.Valid) (room : c.pos + n ≤ c.len) :
    read n c = .ok (c.rest.take n) { c with pos := c.pos + n } := by
  rw [read, Program.bind_ok (Program.read_run id c), Program.bind_ok (access_fits valid room)]
  rfl

theorem read_throws (full : c.len < c.pos + n) (small : n < 2 ^ 63) :
    read n c = .threw .readOverflow c := by
  rw [read, Program.bind_ok (Program.read_run id c), Program.bind_threw (access_throws full small)]

theorem read_outside (valid : c.Valid) (large : 2 ^ 63 ≤ n) (typed : n < 2 ^ 64) :
    read n c = .undefined .outsideBuffer := by
  rw [read, Program.bind_ok (Program.read_run id c),
    Program.bind_undefined (access_outside valid large typed)]

theorem write_fits (valid : c.Valid) (room : c.pos + data.length ≤ c.len) :
    write data c = .ok () { bytes := c.spliced data, pos := c.pos + data.length } := by
  rw [write, Program.bind_ok (access_fits valid room)]
  rfl

theorem write_throws (full : c.len < c.pos + data.length) (small : data.length < 2 ^ 63) :
    write data c = .threw .writeOverflow c := by
  rw [write, Program.bind_threw (access_throws full small)]

theorem write_outside (valid : c.Valid) (large : 2 ^ 63 ≤ data.length)
    (typed : data.length < 2 ^ 64) : write data c = .undefined .outsideBuffer := by
  rw [write, Program.bind_undefined (access_outside valid large typed)]

theorem length_take_rest (valid : c.Valid) (room : c.pos + n ≤ c.len) :
    (c.rest.take n).length = n := by
  have nonneg := valid.nonneg
  unfold len at room
  rw [List.length_take, rest, List.length_drop]
  omega

theorem length_spliced (valid : c.Valid) (room : c.pos + data.length ≤ c.len) :
    (c.spliced data).length = c.bytes.length := by
  have nonneg := valid.nonneg
  unfold len at room
  simp only [spliced, List.length_append, List.length_take, List.length_drop]
  omega

theorem drop_spliced (valid : c.Valid) (room : c.pos + data.length ≤ c.len) :
    (c.spliced data).drop c.pos.toNat = data ++ c.rest.drop data.length := by
  have nonneg := valid.nonneg
  unfold len at room
  have before : (c.bytes.take c.pos.toNat).length = c.pos.toNat := by
    rw [List.length_take]
    omega
  rw [spliced, List.append_assoc, List.drop_append_of_le_length before.ge, rest, List.drop_drop,
    List.drop_of_length_le before.le, List.nil_append]

theorem take_rest_spliced (valid : c.Valid) (room : c.pos + data.length ≤ c.len) :
    (mk (c.spliced data) c.pos).rest.take data.length = data := by
  rw [rest, drop_spliced valid room, List.take_left]

theorem spliced_spliced (valid : c.Valid) (room : c.pos + data.length ≤ c.len) (more : List UInt8) :
    (mk (c.spliced data) (c.pos + data.length)).spliced more = c.spliced (data ++ more) := by
  have nonneg := valid.nonneg
  unfold len at room
  have place : (c.pos + data.length).toNat = c.pos.toNat + data.length := by omega
  have before : (c.bytes.take c.pos.toNat ++ data).length = c.pos.toNat + data.length := by
    rw [List.length_append, List.length_take]
    omega
  have prefixed : (c.spliced data).take (c.pos.toNat + data.length) =
      c.bytes.take c.pos.toNat ++ data := by
    rw [spliced, ← before, List.take_left]
  have suffixed : (c.spliced data).drop (c.pos.toNat + data.length + more.length) =
      c.bytes.drop (c.pos.toNat + (data ++ more).length) := by
    rw [← List.drop_drop, spliced, ← before, List.drop_left, List.drop_drop, before, List.length_append,
      Nat.add_assoc]
  rw [spliced, place, prefixed, suffixed, spliced, List.append_assoc _ data]

theorem rest_moved (valid : c.Valid) : (mk c.bytes (c.pos + n)).rest = c.rest.drop n := by
  have nonneg := valid.nonneg
  have place : (c.pos + n).toNat = c.pos.toNat + n := by omega
  rw [rest, rest, List.drop_drop, place]

theorem Valid.wrote (valid : c.Valid) (room : c.pos + data.length ≤ c.len) :
    Valid { bytes := c.spliced data, pos := c.pos + data.length } := by
  have kept := length_spliced valid room
  have nonneg := valid.nonneg
  have small := valid.small
  unfold len at room small
  refine ⟨?_, ?_, ?_⟩ <;> simp only [len, kept] <;> omega

theorem Valid.moved (valid : c.Valid) (room : c.pos + n ≤ c.len) :
    Valid { c with pos := c.pos + n } :=
  ⟨add_nonneg valid.nonneg (Int.natCast_nonneg n), room, valid.small⟩

theorem int64_run {overflow : Overflow} {i : ℤ} (low : -2 ^ 63 ≤ i) (high : i < 2 ^ 63) :
    int64 overflow i c = .ok i c := by
  have unchanged := signed_of_small low high
  cases overflow with
  | wraps => rw [int64, unchanged]; rfl
  | undefined => rw [int64, Program.bind_ok (Program.require_run unchanged)]; rfl

def target (c : Cursor) (offset : ℤ) : SeekFrom → ℤ
  | .beginning => offset
  | .current => c.pos + offset
  | .ending => c.len + offset

variable {overflow : Overflow} {offset : ℤ} {origin : SeekFrom}

theorem arrive_run {t : ℤ} {p : Prop} [Decidable p] (check : p ↔ ¬(0 ≤ t ∧ t ≤ c.len))
    {move : Cursor → Cursor} (moves : move c = { c with pos := t }) :
    (if p then Program.throw .seekOutOfRange else Program.update move : Op Unit) c =
      if 0 ≤ t ∧ t ≤ c.len then .ok () { c with pos := t } else .threw .seekOutOfRange c := by
  by_cases inside : 0 ≤ t ∧ t ≤ c.len
  · rw [if_neg (fun fails => check.mp fails inside), if_pos inside, Program.update_run, moves]
  · rw [if_pos (check.mpr inside), if_neg inside, Program.throw_run]

theorem seek_run (valid : c.Valid) (low : -2 ^ 63 ≤ offset) (high : offset < 2 ^ 63)
    (value : origin = .current → c.pos + offset < 2 ^ 63) :
    seek overflow offset origin c =
      if 0 ≤ c.target offset origin ∧ c.target offset origin ≤ c.len then
        .ok () { c with pos := c.target offset origin }
      else .threw .seekOutOfRange c := by
  have nonneg := valid.nonneg
  have le_len := valid.le_len
  have small := valid.small
  rw [seek, Program.bind_ok (Program.read_run id c)]
  cases origin with
  | beginning => exact arrive_run (by simp only [target, id]; omega) rfl
  | current =>
    have summed : int64 overflow (c.pos + offset) c = .ok (c.pos + offset) c :=
      int64_run (by omega) (value rfl)
    exact (Program.bind_ok summed).trans (arrive_run (by simp only [target, id]; omega) rfl)
  | ending =>
    have negated : int64 overflow (-c.len) c = .ok (-c.len) c := int64_run (by omega) (by omega)
    exact (Program.bind_ok negated).trans (arrive_run (by simp only [target]; omega) rfl)

/-- A sum past the largest offset: it wraps to a negative one and the seek throws, or is undefined. -/
theorem seek_past (valid : c.Valid) (high : offset < 2 ^ 63) (past : 2 ^ 63 ≤ c.pos + offset) :
    seek overflow offset .current c =
      match overflow with
      | .wraps => .threw .seekOutOfRange c
      | .undefined => .undefined .signedOverflow := by
  have le_len := valid.le_len
  have small := valid.small
  have wrapped : signed (c.pos + offset) = c.pos + offset - 2 ^ 64 :=
    signed_of_large past (by omega)
  rw [seek, Program.bind_ok (Program.read_run id c)]
  cases overflow with
  | wraps =>
    have negative : signed (c.pos + offset) > c.len ∨ signed (c.pos + offset) < 0 := by omega
    have summed : int64 .wraps (c.pos + offset) c = .ok (signed (c.pos + offset)) c := rfl
    simp only [id]
    rw [Program.bind_ok summed, if_pos negative]
    rfl
  | undefined =>
    have inexact : ¬signed (c.pos + offset) = c.pos + offset := by omega
    have faulted : int64 .undefined (c.pos + offset) c = .undefined .signedOverflow :=
      Program.bind_undefined (if_neg inexact)
    exact Program.bind_undefined faulted

end
end Cursor
end Celestite
