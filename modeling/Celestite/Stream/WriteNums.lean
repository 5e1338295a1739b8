import Celestite.Stream.ReadNums

/-!
# Where a sequence of writes stops

`WriteStream::write_nums` over a memory cursor, and `read_nums` on what it left.
-/

namespace Celestite

/-- `(write_num<endian>(Args), ...)`, each `T` in its whole width. -/
def writeNums (host endian : Endian) {ts : List IntType} (src : Nums ts) : Cursor.Op Unit :=
  writeFields host endian src

namespace Nums
variable {host host' endian : Endian} {t : IntType} {ts : List IntType} {c : Cursor}

/-- The bytes of the first `k` numbers. -/
def first (host endian : Endian) (src : Nums ts) (k : ℕ) : List UInt8 :=
  (emitted host endian src).take (width (ts.take k))

theorem total_full (ts : List IntType) : Field.total (ts.map Field.full) = width ts := by
  rw [Field.total, List.map_map]
  rfl

theorem width_take_le (ts : List IntType) (k : ℕ) : width (ts.take k) ≤ width ts := by
  have parts := congrArg width (List.take_append_drop k ts)
  rw [width, List.map_append, List.sum_append] at parts
  exact parts ▸ Nat.le_add_right _ _

theorem length_first (src : Nums ts) (k : ℕ) : (first host endian src k).length = width (ts.take k) := by
  rw [first, List.length_take, length_emitted, total_full]
  exact Nat.min_eq_left (width_take_le ts k)

theorem first_cons (o : Object (Field.full t).type) (os : Nums ts) (k : ℕ) :
    @first (t :: ts) host endian (.cons o os) (k + 1) =
      wire endian (Field.full t) (o.number host) ++ first host endian os k := by
  have length : (wire endian (Field.full t) (o.number host)).length = t.width := length_wire _ _ _
  rw [first, emitted, List.take_succ_cons, width_cons, ← length, List.take_length_add_append]
  rfl

/-- The numbers are back, whatever follows their bytes. -/
theorem decoded_first (src : Nums ts) (k : ℕ) (more : List UInt8) :
    decoded endian (ts.take k) (first host endian src k ++ more) = (src.values host).take k := by
  induction k generalizing ts with
  | zero => rfl
  | succ k ih =>
    match ts, src with
    | [], .nil => rfl
    | t :: ts, .cons o os =>
      have length : (wire endian (Field.full t) (o.number host)).length = t.width := length_wire _ _ _
      have value : t.decode (Digits.number (endian.arrange (wire endian (Field.full t) (o.number host)))) =
          o.value host := by
        have whole : o.number host % 256 ^ (Field.full t).bytes = o.number host := Nat.mod_eq_of_lt o.number_lt
        rw [number_wire, whole]
        rfl
      rw [List.take_succ_cons, decoded, first_cons, List.append_assoc, ← length, List.take_left, List.drop_left,
        value, ih, Vars.values, List.take_succ_cons]

/-- The outcome of the call when the first `k` of the numbers fit. -/
def torn (c : Cursor) (src : Nums ts) (host endian : Endian) (k : ℕ) : Outcome Cursor StreamIoError MemoryFault Unit :=
  if k = ts.length then .ok () ⟨c.spliced (first host endian src k), c.pos + width (ts.take k)⟩
  else .threw .writeOverflow ⟨c.spliced (first host endian src k), c.pos + width (ts.take k)⟩

end Nums

section
variable {host host' endian : Endian} {t : IntType} {ts : List IntType} {c : Cursor}

theorem Nums.torn_cons {k : ℕ} {o : Object (Field.full t).type} {os : Nums ts} {data : List UInt8}
    (length : data.length = t.width) (bytes : data = wire endian (Field.full t) (o.number host)) (valid : c.Valid)
    (room : c.pos + data.length ≤ c.len) :
    Nums.torn ⟨c.spliced data, c.pos + data.length⟩ os host endian k =
      @Nums.torn (t :: ts) c (.cons o os) host endian (k + 1) := by
  have sum : c.pos + data.length + Nums.width (ts.take k) = c.pos + Nums.width ((t :: ts).take (k + 1)) := by
    rw [List.take_succ_cons, Nums.width_cons, length]
    push_cast
    ring
  unfold Nums.torn
  rw [Cursor.spliced_spliced valid room, sum, Nums.first_cons, ← bytes, List.length_cons]
  simp only [Nat.add_right_cancel_iff]

/-- The numbers before the one that does not fit are on the stream, and nothing of the others. -/
theorem write_nums_run (valid : c.Valid) (small : ∀ t ∈ ts, t.width < 2 ^ 63) (src : Nums ts) :
    writeNums host endian src c = Nums.torn c src host endian (Nums.fitting (c.len - c.pos) ts) := by
  induction ts generalizing c with
  | nil =>
    cases src
    simp [writeNums, writeFields, Nums.torn, Nums.fitting, Nums.first, Cursor.spliced]
  | cons t ts ih =>
    cases src with
    | cons o os =>
      have later : ∀ t ∈ ts, t.width < 2 ^ 63 := fun t mem => small t (.tail _ mem)
      have length : (wire endian (Field.full t) (o.number host)).length = t.width := length_wire _ _ _
      rw [Nums.fitting, writeNums, writeFields, write_num_wire]
      generalize bytes : wire endian (Field.full t) (o.number host) = data at length ⊢
      split_ifs with fits
      · have room : c.pos + data.length ≤ c.len := by omega
        have others := ih (valid.wrote room) later os
        have less : Cursor.len ⟨c.spliced data, c.pos + data.length⟩ - (c.pos + data.length) =
            c.len - c.pos - t.width := by
          simp only [Cursor.len, Cursor.length_spliced valid room]
          omega
        rw [less, Nums.torn_cons length bytes.symm valid room] at others
        rw [Program.bind_ok (Cursor.write_fits valid room)]
        exact others
      · have threw : Cursor.write data c = .threw .writeOverflow c :=
          Cursor.write_throws (by omega) (length ▸ small t (.head _))
        rw [Program.bind_threw threw]
        simp [Nums.torn, Nums.first, Cursor.spliced]

/-- Where the buffer is too short for all, the numbers before the first one that does not fit are written, and
a host of either byte order reads them back and stops at the same number. -/
theorem torn_record (valid : c.Valid) (small : ∀ t ∈ ts, t.width < 2 ^ 63) (src dst : Nums ts) :
    ∃ k data got, IsGreatest {k | k ≤ ts.length ∧ Nums.width (ts.take k) ≤ c.len - c.tell} k ∧
      data = Nums.first host endian src k ∧ data.length = Nums.width (ts.take k) ∧
      writeNums host endian src c = (if k = ts.length then .ok () ⟨c.spliced data, c.tell + data.length⟩
        else .threw .writeOverflow ⟨c.spliced data, c.tell + data.length⟩) ∧
      readNums host' endian ts (⟨c.spliced data, c.tell⟩, dst) = (
        if k = ts.length then .ok () (⟨c.spliced data, c.tell + data.length⟩, got)
        else .threw .readOverflow (⟨c.spliced data, c.tell + data.length⟩, got)) ∧
      got.values host' = (src.values host).take k ++ (dst.values host').drop k := by
  have room : 0 ≤ c.len - c.pos := sub_nonneg.mpr valid.le_len
  have greatest := Nums.fitting_isGreatest room ts
  have wrote := @write_nums_run host endian ts c valid small src
  have within := greatest.1.2
  have length := @Nums.length_first host endian ts src (Nums.fitting (c.len - c.pos) ts)
  generalize bytes : Nums.first host endian src (Nums.fitting (c.len - c.pos) ts) = data at length
  have fits : c.pos + data.length ≤ c.len := by omega
  have len : Cursor.len ⟨c.spliced data, c.pos⟩ = c.len := by simp only [Cursor.len, Cursor.length_spliced valid fits]
  have valid' : Cursor.Valid ⟨c.spliced data, c.pos⟩ := ⟨valid.nonneg, len ▸ valid.le_len, len ▸ valid.small⟩
  obtain ⟨got, read, values⟩ := @read_nums_run host' endian ts ⟨c.spliced data, c.pos⟩ valid' small dst
  rw [len] at read values
  refine ⟨_, data, got, greatest, bytes.symm, length, ?_, ?_, ?_⟩
  · rw [wrote, Nums.torn, bytes, ← length]
    rfl
  · refine read.trans ?_
    rw [Nums.stopped, ← length]
    rfl
  · have rest : Cursor.rest ⟨c.spliced data, c.pos⟩ = data ++ c.rest.drop data.length :=
      Cursor.drop_spliced valid fits
    rw [values, rest, ← bytes, Nums.decoded_first]

/-- Two numbers into three bytes: the second does not fit, and is not found. -/
theorem torn_record_second : ∃ got, @writeNums .LE .BE [⟨2, false⟩, ⟨2, true⟩]
      (.cons ⟨[2, 1], rfl⟩ (.cons ⟨[9, 9], rfl⟩ .nil)) { bytes := [0, 0, 0] } =
      .threw .writeOverflow ⟨[1, 2, 0], 2⟩ ∧
    readNums .BE .BE [⟨2, false⟩, ⟨2, true⟩]
      ({ bytes := [1, 2, 0] }, .cons ⟨[0, 0], rfl⟩ (.cons ⟨[0, 8], rfl⟩ .nil)) =
      .threw .readOverflow (⟨[1, 2, 0], 2⟩, got) ∧ got.values .BE = [0x0102, 8] := by
  obtain ⟨k, data, got, greatest, rfl, -, wrote, read, values⟩ := @torn_record .LE .BE .BE
    [⟨2, false⟩, ⟨2, true⟩] { bytes := [0, 0, 0] } ⟨by decide, by decide, by decide⟩ (by decide)
    (.cons ⟨[2, 1], rfl⟩ (.cons ⟨[9, 9], rfl⟩ .nil)) (.cons ⟨[0, 0], rfl⟩ (.cons ⟨[0, 8], rfl⟩ .nil))
  obtain rfl : k = 1 := greatest.unique (@Nums.fitting_isGreatest 3 (by decide) _)
  exact ⟨got, wrote, read, values.trans (by decide)⟩

end
end Celestite
