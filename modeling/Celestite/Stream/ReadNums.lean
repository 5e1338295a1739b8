import Celestite.Stream.Fields

/-!
# Where a sequence of reads stops

`ReadStream::read_nums` over a memory cursor, with the endianness as a template argument and as an
argument. Each `T` is read in its whole width.
-/

namespace Celestite

def Field.full (t : IntType) : Field := ⟨t, t.width, le_rfl, fun _ => rfl⟩

abbrev Nums (ts : List IntType) := Vars (ts.map Field.full)

abbrev Nums.Op (ts : List IntType) := Program (Cursor × Nums ts) StreamIoError MemoryFault Unit

namespace Vars
variable {f : Field} {fs : List Field} {α : Type} {c c' : Cursor} {e : StreamIoError}

/-- A call with the first variable as its only argument. -/
def onFirst (p : Program (Cursor × Vars [f]) StreamIoError MemoryFault α) :
    Program (Cursor × Vars (f :: fs)) StreamIoError MemoryFault α :=
  p.focus (fun s => (s.1, cons s.2.head nil)) fun s d => (d.1, cons d.2.head s.2.tail)

theorem onHead_threw {p : Program (Dest f.type) StreamIoError MemoryFault α} {o o' : Object f.type}
    {os : Vars fs} (h : p (c, o) = .threw e (c', o')) :
    onHead p (c, cons o os) = .threw e (c', cons o' os) := by
  simp [onHead, Program.focus, head, tail, h]

theorem onTail_threw {p : Program (Cursor × Vars fs) StreamIoError MemoryFault α} {o : Object f.type}
    {os os' : Vars fs} (h : p (c, os) = .threw e (c', os')) :
    onTail p (c, cons o os) = .threw e (c', cons o os') := by
  simp [onTail, Program.focus, head, tail, h]

theorem onFirst_onHead (p : Program (Dest f.type) StreamIoError MemoryFault Unit) :
    @onFirst f fs Unit (do onHead p; onTail (pure ())) = onHead p := by
  funext ⟨c, vars⟩
  cases vars with
  | cons o os =>
    simp only [onFirst, onHead, onTail, Program.focus, head, tail, Program.bind_run]
    cases p (c, o) <;> rfl

end Vars

/-- `(read_num<endian>(Args), ...)` -/
def readNums (host endian : Endian) (ts : List IntType) : Nums.Op ts :=
  readFields host endian (ts.map Field.full)

def eachNum (p : (t : IntType) → Nums.Op [t]) : (ts : List IntType) → Nums.Op ts
  | [] => pure ()
  | t :: ts => do
    Vars.onFirst (p t)
    Vars.onTail (eachNum p ts)

/-- The overload that is given the endianness at run time: `(read_nums<Endian::BE>(Args),...)`. -/
def readNumsAt (host endian : Endian) (ts : List IntType) : Nums.Op ts :=
  match endian with
  | .BE => eachNum (fun t => readNums host .BE [t]) ts
  | .LE => eachNum (fun t => readNums host .LE [t]) ts

namespace Nums

def width (ts : List IntType) : ℕ := (ts.map IntType.width).sum

/-- How many of the first numbers fit into the room. -/
def fitting : ℤ → List IntType → ℕ
  | _, [] => 0
  | room, t :: ts => if t.width ≤ room then fitting (room - t.width) ts + 1 else 0

/-- The numbers that the first bytes stand for. -/
def decoded (endian : Endian) : List IntType → List UInt8 → List ℤ
  | [], _ => []
  | t :: ts, bs =>
    t.decode (Digits.number (endian.arrange (bs.take t.width))) :: decoded endian ts (bs.drop t.width)

@[simp] theorem width_nil : width [] = 0 := rfl

@[simp] theorem width_cons (t : IntType) (ts : List IntType) : width (t :: ts) = t.width + width ts := by
  simp [width]

theorem fitting_isGreatest {room : ℤ} (nonneg : 0 ≤ room) (ts : List IntType) :
    IsGreatest {k | k ≤ ts.length ∧ width (ts.take k) ≤ room} (fitting room ts) := by
  induction ts generalizing room with
  | nil =>
    constructor
    · exact ⟨le_rfl, by simpa using nonneg⟩
    · rintro k ⟨le, -⟩
      exact le
  | cons t ts ih =>
    rw [fitting]
    split_ifs with fits
    · obtain ⟨⟨le, within⟩, most⟩ := @ih (room - t.width) (by omega)
      constructor
      · refine ⟨Nat.succ_le_succ le, ?_⟩
        rw [List.take_succ_cons, width_cons]
        push_cast
        omega
      · rintro (_ | k) ⟨le', within'⟩
        · exact Nat.zero_le _
        · rw [List.take_succ_cons, width_cons] at within'
          push_cast at within'
          exact Nat.succ_le_succ (most ⟨Nat.le_of_succ_le_succ le', by omega⟩)
    · constructor
      · exact ⟨Nat.zero_le _, by simpa using nonneg⟩
      · rintro (_ | k) ⟨-, within⟩
        · exact le_rfl
        · rw [List.take_succ_cons, width_cons] at within
          push_cast at within
          omega

end Nums

section
variable {host endian : Endian} {t : IntType} {ts : List IntType} {c : Cursor}

theorem readNumsAt_eq : readNumsAt host endian ts = readNums host endian ts := by
  have each (endian : Endian) : eachNum (fun t => readNums host endian [t]) ts = readNums host endian ts := by
    induction ts with
    | nil => rfl
    | cons t ts ih =>
      rw [eachNum, ih]
      have single := @Vars.onFirst_onHead _ (ts.map Field.full) (readNum host endian (Field.full t))
      exact congrArg (fun p => do p; Vars.onTail (readNums host endian ts)) single
  cases endian with
  | BE => exact each .BE
  | LE => exact each .LE

/-- A number in its whole width is not cleared before it is read. -/
theorem read_num_throws {f : Field} (whole : f.bytes = f.type.width) (short : c.len < c.pos + f.bytes)
    (small : f.bytes < 2 ^ 63) (o : Object f.type) :
    readNum host endian f (c, o) = .threw .readOverflow (c, o) := by
  have clears : f.clear o = .ok () o := by
    unfold Field.clear
    rw [if_neg (by omega), Program.pure_run]
  have threw : Dest.onCursor (Cursor.read f.bytes) (c, o) = .threw .readOverflow (c, o) :=
    Program.focus_threw (Cursor.read_throws short small)
  rw [readNum, Program.bind_ok (Dest.onObject_ok clears), Program.bind_threw threw]

theorem readNums_cons : readNums host endian (t :: ts) = (do
    Vars.onHead (readNum host endian (Field.full t))
    Vars.onTail (readNums host endian ts)) := rfl

/-- The outcome of the call when the first `k` of the numbers fit. -/
def Nums.stopped (c : Cursor) (k : ℕ) (got : Nums ts) :
    Outcome (Cursor × Nums ts) StreamIoError MemoryFault Unit :=
  if k = ts.length then .ok () (⟨c.bytes, c.pos + width (ts.take k)⟩, got)
  else .threw .readOverflow (⟨c.bytes, c.pos + width (ts.take k)⟩, got)

theorem Nums.stopped_cons {k : ℕ} {o : Object (Field.full t).type} {os got : Nums ts}
    (others : readNums host endian ts (⟨c.bytes, c.pos + t.width⟩, os) =
      Nums.stopped ⟨c.bytes, c.pos + t.width⟩ k got) :
    Vars.onTail (f := Field.full t) (readNums host endian ts) (⟨c.bytes, c.pos + t.width⟩, .cons o os) =
      @Nums.stopped (t :: ts) c (k + 1) (.cons o got) := by
  have sum : c.pos + t.width + width (ts.take k) = c.pos + width ((t :: ts).take (k + 1)) := by
    rw [List.take_succ_cons, width_cons]
    push_cast
    ring
  unfold Nums.stopped at others ⊢
  rw [← sum]
  by_cases all : k = ts.length
  · rw [if_pos all] at others
    have whole : k + 1 = (t :: ts).length := congrArg Nat.succ all
    rw [if_pos whole]
    exact Vars.onTail_ok others
  · rw [if_neg all] at others
    have part : k + 1 ≠ (t :: ts).length := fun same => all (Nat.succ.inj same)
    rw [if_neg part]
    exact Vars.onTail_threw others

/-- The numbers before the one that fails are read, the others keep their values. -/
theorem read_nums_run (valid : c.Valid) (small : ∀ t ∈ ts, t.width < 2 ^ 63) (dst : Nums ts) :
    ∃ got, readNums host endian ts (c, dst) = Nums.stopped c (Nums.fitting (c.len - c.pos) ts) got ∧
      got.values host = Nums.decoded endian (ts.take (Nums.fitting (c.len - c.pos) ts)) c.rest ++
        (dst.values host).drop (Nums.fitting (c.len - c.pos) ts) := by
  induction ts generalizing c with
  | nil =>
    cases dst
    refine ⟨.nil, ?_, rfl⟩
    simp [Nums.stopped, Nums.fitting]
    rfl
  | cons t ts ih =>
    cases dst with
    | cons o os =>
      have here := small t (.head _)
      have later : ∀ t ∈ ts, t.width < 2 ^ 63 := fun t mem => small t (.tail _ mem)
      rw [Nums.fitting, readNums_cons]
      split_ifs with fits
      · have room : c.pos + t.width ≤ c.len := by omega
        have first : readNum host endian (Field.full t) (c, o) = _ := read_num_run valid room o
        obtain ⟨got, others, values⟩ := ih (valid.moved room) later os
        have less : Cursor.len ⟨c.bytes, c.pos + t.width⟩ - (c.pos + t.width) = c.len - c.pos - t.width := by
          simp only [Cursor.len]
          omega
        rw [less] at others values
        generalize Nums.fitting (c.len - c.pos - t.width) ts = k at others values ⊢
        rw [Cursor.rest_moved valid] at values
        have length : (c.rest.take t.width).length = (Field.full t).bytes := Cursor.length_take_rest valid room
        have value : (Object.ofNumber host t (Digits.number (endian.arrange (c.rest.take t.width)))).value host =
            t.decode (Digits.number (endian.arrange (c.rest.take t.width))) :=
          congrArg t.decode (Object.number_ofNumber (number_lt_width length))
        refine ⟨.cons _ got, (Program.bind_ok (Vars.onHead_ok first)).trans (Nums.stopped_cons others), ?_⟩
        exact congrArg₂ List.cons value values
      · have short : c.len < c.pos + t.width := by omega
        have threw : readNum host endian (Field.full t) (c, o) = _ := read_num_throws rfl short here o
        refine ⟨.cons o os, (Program.bind_threw (Vars.onHead_threw threw)).trans ?_, rfl⟩
        simp [Nums.stopped]

/-- The largest number of fields that fit are read and the others keep their values; where that is
not all of them the position is before the first one that does not fit. -/
theorem read_nums_stops (valid : c.Valid) (small : ∀ t ∈ ts, t.width < 2 ^ 63) (dst : Nums ts) :
    ∃ k got, IsGreatest {k | k ≤ ts.length ∧ Nums.width (ts.take k) ≤ c.len - c.tell} k ∧
      got.values host = Nums.decoded endian (ts.take k) c.rest ++ (dst.values host).drop k ∧
      (k = ts.length → readNums host endian ts (c, dst) =
        .ok () (⟨c.bytes, c.tell + Nums.width (ts.take k)⟩, got)) ∧
      (k ≠ ts.length → readNums host endian ts (c, dst) =
        .threw .readOverflow (⟨c.bytes, c.tell + Nums.width (ts.take k)⟩, got)) ∧
      readNumsAt host endian ts (c, dst) = readNums host endian ts (c, dst) := by
  have room : 0 ≤ c.len - c.pos := sub_nonneg.mpr valid.le_len
  obtain ⟨got, run, values⟩ := @read_nums_run host endian ts c valid small dst
  refine ⟨_, got, Nums.fitting_isGreatest room ts, values, ?_, ?_, congrFun readNumsAt_eq _⟩
  · intro all
    exact run.trans (if_pos all)
  · intro part
    exact run.trans (if_neg part)

/-- Two numbers of two bytes, three of which are there: the first number is read. -/
theorem read_nums_stops_second : ∃ got, readNumsAt .LE .BE [⟨2, false⟩, ⟨2, true⟩]
      ({ bytes := [1, 2, 3] }, .cons ⟨[9, 9], rfl⟩ (.cons ⟨[8, 0], rfl⟩ .nil)) =
        .threw .readOverflow (⟨[1, 2, 3], 2⟩, got) ∧ got.values .LE = [0x0102, 8] := by
  obtain ⟨k, got, greatest, values, -, threw, agree⟩ := @read_nums_stops .LE .BE [⟨2, false⟩, ⟨2, true⟩]
    { bytes := [1, 2, 3] } ⟨by decide, by decide, by decide⟩ (by decide)
    (.cons ⟨[9, 9], rfl⟩ (.cons ⟨[8, 0], rfl⟩ .nil))
  obtain rfl : k = 1 := greatest.unique (@Nums.fitting_isGreatest 3 (by decide) _)
  exact ⟨got, agree.trans (threw (by decide)), values.trans (by decide)⟩

end
end Celestite
