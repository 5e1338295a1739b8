import Celestite.Stream.Numeric

/-!
# Sequences of numbers

What `write_num` writes for one number after the other `read_num` reads again, on any two hosts.
-/

namespace Celestite

/-- One variable for each field. -/
inductive Vars : List Field → Type where
  | nil : Vars []
  | cons {f : Field} {fs : List Field} (o : Object f.type) (os : Vars fs) : Vars (f :: fs)

namespace Vars
variable {f : Field} {fs : List Field} {α : Type} {a : α} {c c' : Cursor}

def head : Vars (f :: fs) → Object f.type
  | cons o _ => o

def tail : Vars (f :: fs) → Vars fs
  | cons _ os => os

def values (host : Endian) : {fs : List Field} → Vars fs → List ℤ
  | _, nil => []
  | _, cons o os => o.value host :: os.values host

def onHead (p : Program (Dest f.type) StreamIoError MemoryFault α) :
    Program (Cursor × Vars (f :: fs)) StreamIoError MemoryFault α :=
  p.focus (fun s => (s.1, s.2.head)) fun s d => (d.1, cons d.2 s.2.tail)

def onTail (p : Program (Cursor × Vars fs) StreamIoError MemoryFault α) :
    Program (Cursor × Vars (f :: fs)) StreamIoError MemoryFault α :=
  p.focus (fun s => (s.1, s.2.tail)) fun s d => (d.1, cons s.2.head d.2)

theorem onHead_ok {p : Program (Dest f.type) StreamIoError MemoryFault α} {o o' : Object f.type}
    {os : Vars fs} (h : p (c, o) = .ok a (c', o')) :
    onHead p (c, cons o os) = .ok a (c', cons o' os) := by
  simp [onHead, Program.focus, head, tail, h]

theorem onTail_ok {p : Program (Cursor × Vars fs) StreamIoError MemoryFault α} {o : Object f.type}
    {os os' : Vars fs} (h : p (c, os) = .ok a (c', os')) :
    onTail p (c, cons o os) = .ok a (c', cons o os') := by
  simp [onTail, Program.focus, head, tail, h]

end Vars

namespace Field

def total (fs : List Field) : ℕ := (fs.map Field.bytes).sum

@[simp] theorem total_nil : total [] = 0 := rfl

@[simp] theorem total_cons (f : Field) (fs : List Field) : total (f :: fs) = f.bytes + total fs := by
  simp [total]

/-- The value that arrives. -/
def transferred (f : Field) (v : ℤ) : ℤ := if f.type.signed then v else v % 256 ^ f.bytes

def Fits (f : Field) (v : ℤ) : Prop := f.bytes = f.type.width ∨ v < 256 ^ f.bytes

end Field

def writeFields (host endian : Endian) : {fs : List Field} → Vars fs → Cursor.Op Unit
  | _, .nil => pure ()
  | f :: _, .cons o os => do
    writeNum host endian f o
    writeFields host endian os

def readFields (host endian : Endian) :
    (fs : List Field) → Program (Cursor × Vars fs) StreamIoError MemoryFault Unit
  | [] => pure ()
  | f :: fs => do
    Vars.onHead (readNum host endian f)
    Vars.onTail (readFields host endian fs)

def emitted (host endian : Endian) : {fs : List Field} → Vars fs → List UInt8
  | _, .nil => []
  | f :: _, .cons o os => wire endian f (o.number host) ++ emitted host endian os

def parsed (host endian : Endian) : (fs : List Field) → List UInt8 → Vars fs
  | [], _ => .nil
  | f :: fs, bs =>
    .cons (Object.ofNumber host f.type (Digits.number (endian.arrange (bs.take f.bytes))))
      (parsed host endian fs (bs.drop f.bytes))

section
variable {host host' endian : Endian} {fs : List Field} {c : Cursor}

@[simp] theorem length_emitted (vars : Vars fs) : (emitted host endian vars).length = Field.total fs := by
  induction vars with
  | nil => rfl
  | cons o os ih => rw [emitted, List.length_append, length_wire, ih, Field.total_cons]

theorem write_fields_run (valid : c.Valid) (room : c.pos + Field.total fs ≤ c.len) (vars : Vars fs) :
    writeFields host endian vars c = .ok ()
      { bytes := c.spliced (emitted host endian vars), pos := c.pos + Field.total fs } := by
  induction vars generalizing c with
  | nil => simp [writeFields, emitted, Cursor.spliced]
  | @cons f fs o os ih =>
    rw [Field.total_cons] at room
    have length : (wire endian f (o.number host)).length = f.bytes := length_wire endian f _
    generalize wireEq : wire endian f (o.number host) = data at length
    have fits : c.pos + data.length ≤ c.len := by omega
    have wrote := Cursor.write_fits valid fits
    have kept := Cursor.length_spliced valid fits
    have room' : (Cursor.mk (c.spliced data) (c.pos + data.length)).pos + Field.total fs ≤
        (Cursor.mk (c.spliced data) (c.pos + data.length)).len := by
      simp only [Cursor.len, kept] at room ⊢
      omega
    rw [writeFields, write_num_wire, wireEq, Program.bind_ok wrote, ih (valid.wrote fits) room',
      emitted, wireEq, Cursor.spliced_spliced valid fits, Field.total_cons]
    rw [length, Nat.cast_add, add_assoc]

theorem read_fields_run (valid : c.Valid) (room : c.pos + Field.total fs ≤ c.len) (vars : Vars fs) :
    readFields host endian fs (c, vars) = .ok ()
      ({ c with pos := c.pos + Field.total fs }, parsed host endian fs (c.rest.take (Field.total fs))) := by
  induction vars generalizing c with
  | nil => simp [readFields, parsed]
  | @cons f fs o os ih =>
    rw [Field.total_cons] at room
    have fits : c.pos + f.bytes ≤ c.len := by omega
    have room' : (Cursor.mk c.bytes (c.pos + f.bytes)).pos + Field.total fs ≤
        (Cursor.mk c.bytes (c.pos + f.bytes)).len := by
      simp only [Cursor.len] at room ⊢
      omega
    have first : readNum host endian f (c, o) = _ := read_num_run valid fits o
    have others := ih (valid.moved fits) room'
    rw [readFields, Program.bind_ok (Vars.onHead_ok first), Vars.onTail_ok others,
      Cursor.rest_moved valid, parsed, Field.total_cons, List.take_take, List.drop_take,
      Nat.min_eq_left (Nat.le_add_right _ _), Nat.add_sub_cancel_left, Nat.cast_add, add_assoc]

theorem emitted_eq_of_values_eq {vars vars' : Vars fs} (same : vars.values host = vars'.values host') :
    emitted host endian vars = emitted host' endian vars' := by
  induction vars with
  | nil =>
    cases vars'
    rfl
  | cons o os ih =>
    cases vars' with
    | cons o' os' =>
      rw [Vars.values, Vars.values, List.cons.injEq] at same
      rw [emitted, emitted, Object.number_eq_of_value_eq same.1, ih same.2]

theorem wire_number {f : Field} {bs : List UInt8} (length : bs.length = f.bytes) :
    wire endian f (Digits.number (endian.arrange bs)) = bs := by
  have length' : (endian.arrange bs).length = f.bytes := by simpa using length
  rw [wire, ← length', Digits.digits_number, Endian.arrange_arrange]

theorem number_wire {f : Field} (n : ℕ) :
    Digits.number (endian.arrange (wire endian f n)) = n % 256 ^ f.bytes := by
  rw [wire, Endian.arrange_arrange, Digits.number_digits]

theorem number_lt_width {f : Field} {bs : List UInt8} (length : bs.length = f.bytes) :
    Digits.number (endian.arrange bs) < 256 ^ f.type.width := by
  have bound := Digits.number_lt (endian.arrange bs)
  rw [Endian.length_arrange, length] at bound
  exact bound.trans_le (Nat.pow_le_pow_right (by decide) f.le_width)

theorem decode_mod {f : Field} {n : ℕ} (h : n < 256 ^ f.type.width) :
    f.type.decode (n % 256 ^ f.bytes) = f.transferred (f.type.decode n) := by
  rw [Field.transferred]
  split_ifs with signed
  · rw [f.whole signed, Nat.mod_eq_of_lt h]
  · simp [IntType.decode, signed]

theorem emitted_parsed {bs : List UInt8} (length : bs.length = Field.total fs) :
    emitted host endian (parsed host endian fs bs) = bs := by
  induction fs generalizing bs with
  | nil => exact (List.length_eq_zero_iff.mp length).symm
  | cons f fs ih =>
    rw [Field.total_cons] at length
    have first : (bs.take f.bytes).length = f.bytes := by
      rw [List.length_take]
      omega
    have others : (bs.drop f.bytes).length = Field.total fs := by
      rw [List.length_drop]
      omega
    rw [parsed, emitted, Object.number_ofNumber (number_lt_width first), wire_number first, ih others,
      List.take_append_drop]

theorem values_parsed_emitted (vars : Vars fs) :
    (parsed host' endian fs (emitted host endian vars)).values host' =
      List.zipWith Field.transferred fs (vars.values host) := by
  induction vars with
  | nil => rfl
  | @cons f fs o os ih =>
    have length : (wire endian f (o.number host)).length = f.bytes := length_wire endian f _
    have first : (emitted host endian (.cons o os)).take f.bytes = wire endian f (o.number host) := by
      rw [emitted, ← length, List.take_left]
    have others : (emitted host endian (.cons o os)).drop f.bytes = emitted host endian os := by
      rw [emitted, ← length, List.drop_left]
    rw [parsed, first, others, Vars.values, Vars.values, ih, List.zipWith_cons_cons, Object.value,
      Object.number_ofNumber (number_lt_width length), number_wire, decode_mod Object.number_lt,
      Object.value]

theorem transferred_value {f : Field} {o : Object f.type} (fits : f.Fits (o.value host)) :
    f.transferred (o.value host) = o.value host := by
  rw [Field.transferred]
  split_ifs with signed
  · rfl
  · have value : o.value host = o.number host := by simp [Object.value, IntType.decode, signed]
    have bound : ((o.number host : ℕ) : ℤ) < 256 ^ f.bytes := by
      rcases fits with whole | below
      · rw [whole]
        exact_mod_cast o.number_lt
      · rwa [value] at below
    rw [value, Int.emod_eq_of_lt (Int.natCast_nonneg _) bound]

theorem transferred_of_fits {vars : Vars fs} (fits : List.Forall₂ Field.Fits fs (vars.values host)) :
    List.zipWith Field.transferred fs (vars.values host) = vars.values host := by
  induction vars with
  | nil => rfl
  | cons o os ih =>
    obtain ⟨first, others⟩ := List.forall₂_cons.mp fits
    rw [Vars.values, List.zipWith_cons_cons, transferred_value first, ih others]

theorem room_of_take {d : Cursor} (valid : d.Valid) {n : ℕ} (length : (d.rest.take n).length = n) :
    d.pos + n ≤ d.len := by
  have nonneg := valid.nonneg
  have le_len := valid.le_len
  unfold Cursor.len at le_len ⊢
  rw [List.length_take, Cursor.rest, List.length_drop] at length
  omega

theorem exists_values (host : Endian) {vs : List ℤ} (has : List.Forall₂ (fun f v => f.type.Has v) fs vs) :
    ∃ vars : Vars fs, vars.values host = vs := by
  induction has with
  | nil => exact ⟨.nil, rfl⟩
  | cons first _ ih =>
    obtain ⟨o, value⟩ := Object.exists_value host first
    obtain ⟨os, values⟩ := ih
    exact ⟨.cons o os, by rw [Vars.values, value, values]⟩

/-- What one host writes another one reads, whatever the variables held, and what it reads the
first one writes the same way. -/
theorem numbers_round_trip (sender receiver : Endian) (src dst : Vars fs)
    (valid : c.Valid) (room : c.pos + Field.total fs ≤ c.len) :
    (∃ bs, bs.length = Field.total fs ∧
      writeFields sender endian src c = .ok () ⟨c.spliced bs, c.pos + Field.total fs⟩ ∧
      ∀ d : Cursor, d.Valid → d.rest.take (Field.total fs) = bs →
        ∃ got, readFields receiver endian fs (d, dst) =
            .ok () (⟨d.bytes, d.pos + Field.total fs⟩, got) ∧
          got.values receiver = List.zipWith Field.transferred fs (src.values sender) ∧
          (List.Forall₂ Field.Fits fs (src.values sender) →
            got.values receiver = src.values sender)) ∧
    ∀ d : Cursor, d.Valid → d.pos + Field.total fs ≤ d.len →
      ∃ got, readFields receiver endian fs (d, dst) =
          .ok () (⟨d.bytes, d.pos + Field.total fs⟩, got) ∧
        ∀ copy : Vars fs, copy.values sender = got.values receiver →
          writeFields sender endian copy c =
            .ok () ⟨c.spliced (d.rest.take (Field.total fs)), c.pos + Field.total fs⟩ := by
  constructor
  · refine ⟨_, length_emitted src, write_fields_run valid room src, ?_⟩
    intro d valid' same
    have room' := room_of_take valid' (same ▸ length_emitted src)
    have read : readFields receiver endian fs (d, dst) = _ := read_fields_run valid' room' dst
    rw [same] at read
    have values : (parsed receiver endian fs (emitted sender endian src)).values receiver = _ :=
      values_parsed_emitted src
    exact ⟨_, read, values, fun fits => values.trans (transferred_of_fits fits)⟩
  · intro d valid' room'
    refine ⟨_, read_fields_run valid' room' dst, ?_⟩
    intro copy same
    have length : (d.rest.take (Field.total fs)).length = Field.total fs :=
      Cursor.length_take_rest valid' room'
    rw [write_fields_run valid room copy, emitted_eq_of_values_eq same, emitted_parsed length]

end

/-- Three of four bytes of an unsigned number, and a signed number of two bytes. -/
def mixed : List Field :=
  [⟨⟨4, false⟩, 3, by decide, by decide⟩, ⟨⟨2, true⟩, 2, by decide, by decide⟩]

/-- From a host of one order, through a buffer of eight bytes, to one of the other order. -/
theorem numbers_round_trip_mixed : ∃ bs got,
    writeFields .LE .BE (.cons ⟨[4, 3, 2, 1], rfl⟩ (.cons ⟨[254, 255], rfl⟩ .nil) : Vars mixed)
        ⟨List.replicate 8 0, 1⟩ = .ok () ⟨Cursor.spliced ⟨List.replicate 8 0, 1⟩ bs, 6⟩ ∧
      readFields .BE .BE mixed (⟨Cursor.spliced ⟨List.replicate 8 0, 1⟩ bs, 1⟩,
          .cons ⟨[9, 9, 9, 9], rfl⟩ (.cons ⟨[9, 9], rfl⟩ .nil)) =
        .ok () (⟨Cursor.spliced ⟨List.replicate 8 0, 1⟩ bs, 6⟩, got) ∧
      got.values .BE = [0x020304, -2] := by
  have valid : Cursor.Valid ⟨List.replicate 8 0, 1⟩ := ⟨by decide, by decide, by decide⟩
  obtain ⟨⟨bs, length, wrote, reads⟩, -⟩ := @numbers_round_trip .BE mixed _ .LE .BE
    (.cons ⟨[4, 3, 2, 1], rfl⟩ (.cons ⟨[254, 255], rfl⟩ .nil) : Vars mixed)
    (.cons ⟨[9, 9, 9, 9], rfl⟩ (.cons ⟨[9, 9], rfl⟩ .nil)) valid (by decide)
  have five : bs.length = 5 := length
  have room : (1 : ℤ) + bs.length ≤ Cursor.len ⟨List.replicate 8 0, 1⟩ := by rw [five]; decide
  have back : Cursor.Valid ⟨Cursor.spliced ⟨List.replicate 8 0, 1⟩ bs, 1⟩ := by
    have kept := Cursor.length_spliced valid room
    refine ⟨Int.one_nonneg, ?_, ?_⟩ <;> simp only [Cursor.len, kept] <;> decide
  obtain ⟨got, read, values, -⟩ :=
    reads _ back (by rw [← length]; exact Cursor.take_rest_spliced valid room)
  exact ⟨bs, got, wrote, read, values.trans (by decide)⟩

end Celestite
