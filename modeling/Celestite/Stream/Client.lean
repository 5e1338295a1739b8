import Celestite.Stream.Cursor

/-!
# Code over any stream

`BinaryStreamBase` passes each call on to the class derived from it. Code over a stream is the calls
it makes, each continued with what the call returns.
-/

namespace Celestite

/-- A value of the signed 64-bit type of offsets. -/
def IsOffset (n : ℤ) : Prop := -2 ^ 63 ≤ n ∧ n < 2 ^ 63

inductive Client (α : Type) : Type where
  | done (a : α)
  | read (n : ℕ) (next : List UInt8 → Client α)
  | write (data : List UInt8) (next : Client α)
  | seek (offset : ℤ) (origin : SeekFrom) (next : Client α)
  | tell (next : ℤ → Client α)

/-- The methods of a derived class. -/
structure Derived (σ ε φ : Type) where
  read : ℕ → Program σ ε φ (List UInt8)
  write : List UInt8 → Program σ ε φ Unit
  seek : ℤ → SeekFrom → Program σ ε φ Unit
  tell : Program σ ε φ ℤ

namespace Client
variable {σ ε φ α : Type}

def runOn (d : Derived σ ε φ) : Client α → Program σ ε φ α
  | done a => pure a
  | read n next => do
    let data ← d.read n
    (next data).runOn d
  | write data next => do
    d.write data
    next.runOn d
  | seek offset origin next => do
    d.seek offset origin
    next.runOn d
  | tell next => do
    let place ← d.tell
    (next place).runOn d

end Client

def Cursor.derived (overflow : Overflow) : Derived Cursor StreamIoError MemoryFault where
  read := Cursor.read
  write := Cursor.write
  seek := Cursor.seek overflow
  tell := Program.read Cursor.tell

namespace Cursor
variable {overflow : Overflow} {c c' : Cursor} {n : ℕ} {data : List UInt8}

-- by rewriting, since `rfl` would evaluate the bounds of the offsets
theorem derived_read : (derived overflow).read = read := by rw [derived]

theorem derived_write : (derived overflow).write = write := by rw [derived]

theorem derived_seek : (derived overflow).seek = seek overflow := by rw [derived]

theorem derived_tell : (derived overflow).tell = Program.read tell := by rw [derived]

theorem signed_le {n : ℤ} (nonneg : 0 ≤ n) : signed n ≤ n := by
  unfold signed
  omega

/-- Whatever the size, a call that returns had room for it and one that throws had none. -/
theorem access_cases (n : ℕ) (e : StreamIoError) (c : Cursor) :
    (access n e c = .ok () c ∧ 0 ≤ c.pos ∧ c.pos + n ≤ c.len) ∨
    (access n e c = .threw e c ∧ c.len < c.pos + n) ∨ ∃ fault, access n e c = .undefined fault := by
  rw [access, Program.bind_ok (Program.read_run id c), id]
  split_ifs with beyond
  · have least : signed n ≤ n := signed_le (Int.natCast_nonneg n)
    exact .inr (.inl ⟨rfl, by omega⟩)
  · by_cases inside : 0 ≤ c.pos ∧ c.pos + n ≤ c.len
    · exact .inl ⟨Program.require_run inside, inside⟩
    · exact .inr (.inr ⟨_, if_neg inside⟩)

theorem read_cases (n : ℕ) (c : Cursor) :
    (read n c = .ok (c.rest.take n) { c with pos := c.pos + n } ∧ 0 ≤ c.pos ∧ c.pos + n ≤ c.len) ∨
    (read n c = .threw .readOverflow c ∧ c.len < c.pos + n) ∨ ∃ fault, read n c = .undefined fault := by
  rw [read, Program.bind_ok (Program.read_run id c)]
  rcases access_cases n .readOverflow c with ⟨run, room⟩ | ⟨run, full⟩ | ⟨fault, run⟩
  · rw [Program.bind_ok run]
    exact .inl ⟨rfl, room⟩
  · rw [Program.bind_threw run]
    exact .inr (.inl ⟨rfl, full⟩)
  · rw [Program.bind_undefined run]
    exact .inr (.inr ⟨fault, rfl⟩)

theorem write_cases (data : List UInt8) (c : Cursor) :
    (write data c = .ok () ⟨c.spliced data, c.pos + data.length⟩ ∧ 0 ≤ c.pos ∧
      c.pos + data.length ≤ c.len) ∨
    write data c = .threw .writeOverflow c ∨ ∃ fault, write data c = .undefined fault := by
  rw [write]
  rcases access_cases data.length .writeOverflow c with ⟨run, room⟩ | ⟨run, -⟩ | ⟨fault, run⟩
  · rw [Program.bind_ok run]
    exact .inl ⟨rfl, room⟩
  · rw [Program.bind_threw run]
    exact .inr (.inl rfl)
  · rw [Program.bind_undefined run]
    exact .inr (.inr ⟨fault, rfl⟩)

theorem seek_cases (valid : c.Valid) {offset : ℤ} (typed : IsOffset offset) (origin : SeekFrom) :
    (seek overflow offset origin c = .ok () { c with pos := c.target offset origin } ∧
      0 ≤ c.target offset origin ∧ c.target offset origin ≤ c.len) ∨
    seek overflow offset origin c = .threw .seekOutOfRange c ∨
    ∃ fault, seek overflow offset origin c = .undefined fault := by
  obtain ⟨low, high⟩ := typed
  by_cases past : origin = .current ∧ 2 ^ 63 ≤ c.pos + offset
  · obtain ⟨rfl, past⟩ := past
    have result : seek overflow offset .current c = _ := seek_past valid high past
    rw [result]
    cases overflow with
    | wraps => exact .inr (.inl rfl)
    | undefined => exact .inr (.inr ⟨_, rfl⟩)
  · have value : origin = .current → c.pos + offset < 2 ^ 63 := by
      intro current
      by_contra more
      exact past ⟨current, by omega⟩
    have result : seek overflow offset origin c = _ := seek_run valid low high value
    simp only [result]
    split_ifs with inside
    · exact .inl ⟨rfl, inside⟩
    · exact .inr (.inl rfl)

end Cursor
end Celestite
