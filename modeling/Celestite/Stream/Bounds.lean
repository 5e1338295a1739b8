import Celestite.Concurrency.Lts
import Celestite.Stream.Cursor

/-!
# The cursor stays in its buffer

A run calls `seek`, `read` and `write` with any arguments their types have. What throws is
caught by the caller, what is undefined ends the run.
-/

namespace Celestite.Cursor
open Concurrency

inductive Call where
  | seek (offset : ℤ) (origin : SeekFrom)
  | read (n : ℕ)
  | write (data : List UInt8)

namespace Call

def size : Call → ℕ
  | seek _ _ => 0
  | read n => n
  | write data => data.length

def transfers : Call → Bool
  | seek _ _ => false
  | _ => true

/-- The arguments are values of `OffsetType` and `size_t`. -/
def Typed : Call → Prop
  | seek offset _ => -2 ^ 63 ≤ offset ∧ offset < 2 ^ 63
  | read n => n < 2 ^ 64
  | write data => data.length < 2 ^ 64

def perform (overflow : Overflow) : Call → Op (List UInt8)
  | seek offset origin => do
    Cursor.seek overflow offset origin
    pure []
  | read n => Cursor.read n
  | write data => do
    Cursor.write data
    pure []

/-- The call touches no byte outside the buffer, throws exactly when it asks for more bytes than
remain, and changes nothing where it throws. -/
structure Bounded (overflow : Overflow) (c : Cursor) (call : Call) : Prop where
  inside : call.perform overflow c ≠ .undefined .outsideBuffer
  throws : call.transfers → ((∃ e c', call.perform overflow c = .threw e c') ↔
    c.len - c.tell < call.size)
  unchanged : ∀ {e c'}, call.perform overflow c = .threw e c' → c' = c

end Call

def system (overflow : Overflow) (bytes : List UInt8) : Lts Cursor Call where
  init := { bytes := bytes }
  step c call :=
    match call.perform overflow c with
    | .ok _ c' | .threw _ c' => some c'
    | .undefined _ => none

section
variable {overflow : Overflow} {c : Cursor} {call : Call}

/-- A call of a size in the lower half moves the cursor in its buffer, throws and leaves it, or
is a seek whose sum is undefined. -/
theorem perform_small (valid : c.Valid) (typed : call.Typed) (small : call.size < 2 ^ 63) :
    (call.size ≤ c.len - c.pos ∧ ∃ data c', call.perform overflow c = .ok data c' ∧ c'.Valid ∧
      c'.len = c.len) ∨
    ((call.transfers → c.len - c.pos < call.size) ∧ ∃ e, call.perform overflow c = .threw e c) ∨
    (call.transfers = false ∧ call.perform overflow c = .undefined .signedOverflow) := by
  cases call with
  | seek offset origin =>
    obtain ⟨low, high⟩ := typed
    rw [Call.perform]
    by_cases past : origin = .current ∧ 2 ^ 63 ≤ c.pos + offset
    · obtain ⟨rfl, past⟩ := past
      have result : seek overflow offset .current c = _ := seek_past valid high past
      cases overflow with
      | wraps => exact .inr (.inl ⟨nofun, .seekOutOfRange, by rw [Program.bind_threw result]⟩)
      | undefined => exact .inr (.inr ⟨rfl, by rw [Program.bind_undefined result]⟩)
    · have value : origin = .current → c.pos + offset < 2 ^ 63 := by
        intro current
        by_contra reaches
        exact past ⟨current, by omega⟩
      have result : seek overflow offset origin c = _ := seek_run valid low high value
      split_ifs at result with inside
      · have room : 0 ≤ c.len - c.pos := Int.sub_nonneg_of_le valid.le_len
        refine .inl ⟨room, [], { c with pos := c.target offset origin }, ?_,
          ⟨inside.1, inside.2, valid.small⟩, rfl⟩
        rw [Program.bind_ok result, Program.pure_run]
      · exact .inr (.inl ⟨nofun, .seekOutOfRange, by rw [Program.bind_threw result]⟩)
  | read n =>
    simp only [Call.perform, Call.size] at small ⊢
    by_cases room : c.pos + n ≤ c.len
    · exact .inl ⟨by omega, _, _, read_fits valid room, valid.moved room, rfl⟩
    · exact .inr (.inl ⟨fun _ => by omega, _, read_throws (by omega) small⟩)
  | write data =>
    rw [Call.perform]
    simp only [Call.size] at small ⊢
    by_cases room : c.pos + data.length ≤ c.len
    · have kept := length_spliced valid room
      refine .inl ⟨by omega, [], _, ?_, valid.wrote room, by simp only [len, kept]⟩
      rw [Program.bind_ok (write_fits valid room), Program.pure_run]
    · refine .inr (.inl ⟨fun _ => by omega, .writeOverflow, ?_⟩)
      rw [Program.bind_threw (write_throws (by omega) small)]

theorem perform_large (valid : c.Valid) (typed : call.Typed) (large : 2 ^ 63 ≤ call.size) :
    call.perform overflow c = .undefined .outsideBuffer := by
  cases call with
  | seek offset origin =>
    simp only [Call.size] at large
    omega
  | read n =>
    simp only [Call.perform, Call.size, Call.Typed] at large typed ⊢
    exact read_outside valid large typed
  | write data =>
    simp only [Call.size, Call.Typed] at large typed
    rw [Call.perform, Program.bind_undefined (write_outside valid large typed)]

theorem bounded_iff (valid : c.Valid) (typed : call.Typed) :
    call.Bounded overflow c ↔ call.size < 2 ^ 63 := by
  constructor
  · intro bounded
    by_contra large
    exact bounded.inside (perform_large valid typed (by omega))
  · intro small
    obtain ⟨room, data, c', done, -, -⟩ | ⟨full, e, threw⟩ | ⟨seeks, faulted⟩ :=
      @perform_small overflow _ _ valid typed small
    · refine ⟨by simp [done], fun _ => ⟨?_, ?_⟩, by simp [done]⟩
      · rintro ⟨e, c'', threw⟩
        simp [done] at threw
      · intro full
        simp only [tell] at full
        omega
    · refine ⟨by simp [threw], fun transfers => ⟨fun _ => full transfers, fun _ => ⟨e, c, threw⟩⟩, ?_⟩
      rintro e' c' threw'
      rw [threw] at threw'
      injection threw' with _ same
      exact same.symm
    · exact ⟨by simp [faulted], by simp [seeks], by simp [faulted]⟩

theorem step_valid {c' : Cursor} {bytes : List UInt8} (valid : c.Valid) (typed : call.Typed)
    (small : call.size < 2 ^ 63) (taken : (system overflow bytes).step c call = some c') :
    c'.Valid ∧ c'.len = c.len := by
  obtain ⟨-, data, next, done, valid', kept⟩ | ⟨-, e, threw⟩ | ⟨-, faulted⟩ :=
    @perform_small overflow _ _ valid typed small
  · simp only [system, done, Option.some.injEq] at taken
    exact taken ▸ ⟨valid', kept⟩
  · simp only [system, threw, Option.some.injEq] at taken
    exact taken ▸ ⟨valid, rfl⟩
  · simp [system, faulted] at taken

theorem reaches_valid {bytes : List UInt8} (small : bytes.length < 2 ^ 63)
    (reached : (system overflow bytes).Reaches (fun _ call => call.Typed ∧ call.size < 2 ^ 63) c) :
    c.Valid ∧ c.len = bytes.length := by
  apply reached.invariant
  · exact ⟨⟨le_rfl, Int.natCast_nonneg _, by simp only [system, len]; omega⟩, rfl⟩
  · rintro s call s' - ⟨valid, kept⟩ ⟨typed, lower⟩ taken
    obtain ⟨valid', kept'⟩ := step_valid valid typed lower taken
    exact ⟨valid', kept'.trans kept⟩

/-- Where every size so far was in the lower half the position is in the buffer, and the next
call is bounded exactly if its size is in the lower half too. -/
theorem bounded_of_small {bytes : List UInt8} (small : bytes.length < 2 ^ 63)
    (reached : (system overflow bytes).Reaches (fun _ call => call.Typed ∧ call.size < 2 ^ 63) c) :
    0 ≤ c.tell ∧ c.tell ≤ c.len ∧ c.len = bytes.length ∧
      ∀ call : Call, call.Typed → (call.Bounded overflow c ↔ call.size < 2 ^ 63) := by
  obtain ⟨valid, kept⟩ := reaches_valid small reached
  exact ⟨valid.nonneg, valid.le_len, kept, fun _ typed => bounded_iff valid typed⟩

end

/-- Of a buffer of three bytes, after the first was written. -/
theorem bounded_of_small_three :
    (Call.read 3).Bounded .wraps ⟨[7, 2, 3], 1⟩ ∧ ¬(Call.read (2 ^ 63)).Bounded .wraps ⟨[7, 2, 3], 1⟩ := by
  have valid : Cursor.Valid { bytes := [1, 2, 3] } := ⟨by decide, by decide, by decide⟩
  have small : (Call.write [7]).size < 2 ^ 63 := by decide
  have typed : (Call.write [7]).Typed := by simp [Call.Typed]
  have taken : (system .wraps [1, 2, 3]).step { bytes := [1, 2, 3] } (.write [7]) =
      some ⟨[7, 2, 3], 1⟩ := by
    have wrote : write [7] _ = _ := write_fits valid (by decide)
    simp only [system]
    rw [Call.perform, Program.bind_ok wrote]
    rfl
  obtain ⟨-, -, -, bounded⟩ :=
    @bounded_of_small .wraps _ _ (by decide) (.step .init ⟨typed, small⟩ taken)
  have typed_three : (Call.read 3).Typed := by simp [Call.Typed]
  have typed_large : (Call.read (2 ^ 63)).Typed := by simp [Call.Typed]
  exact ⟨(bounded _ typed_three).mpr (by simp [Call.size]), fun large =>
    lt_irrefl _ ((bounded _ typed_large).mp large)⟩

/-- The size `2 ^ 63` passes the check of a cursor over an empty buffer. -/
theorem outside_empty : ¬∀ bytes : List UInt8, bytes.length < 2 ^ 63 →
    ∀ c, (system .wraps bytes).Reaches (fun _ call => call.Typed) c →
      (0 ≤ c.tell ∧ c.tell ≤ c.len) ∧ ∀ call : Call, call.Typed → call.Bounded .wraps c := by
  intro claimed
  have valid : Cursor.Valid { bytes := [] } := ⟨by decide, by decide, by decide⟩
  obtain ⟨-, bounded⟩ := claimed [] (by decide) _ .init
  have typed : (Call.read (2 ^ 63)).Typed := by simp [Call.Typed]
  exact (bounded _ typed).inside (perform_large valid typed le_rfl)

end Celestite.Cursor
