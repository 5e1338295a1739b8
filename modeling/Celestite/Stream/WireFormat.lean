import Celestite.Stream.Fields

/-!
# The wire format

The bytes of a number are its digits in base 256, whatever the order of the host. `write` is that of
the class derived from `WriteStream`.
-/

namespace Celestite

namespace WriteStream
variable {σ ε φ : Type}

def writeNum (write : List UInt8 → Program σ ε φ Unit) (host endian : Endian) (f : Field)
    (src : Object f.type) : Program σ ε φ Unit :=
  let p := src.part (f.offset host) f.bytes
  if endian ≠ host then write p.reverse else write p

/-- `write_nums`, where `f` is the type of the argument in its whole width. -/
def writeFields (write : List UInt8 → Program σ ε φ Unit) (host endian : Endian) :
    {fs : List Field} → Vars fs → Program σ ε φ Unit
  | _, .nil => pure ()
  | f :: _, .cons o os => do
    writeNum write host endian f o
    writeFields write host endian os

theorem writeNum_cursor {host endian : Endian} {f : Field} (src : Object f.type) :
    writeNum Cursor.write host endian f src = Celestite.writeNum host endian f src := rfl

end WriteStream

/-- A file that is written from its beginning to its end. -/
def OutputFile.write {ε φ : Type} (data : List UInt8) : Program (List UInt8) ε φ Unit :=
  Program.update (· ++ data)

/-- The digit whose weight the byte `i` of `n` bytes has. -/
def Endian.place (n i : ℕ) : Endian → ℕ
  | .LE => i
  | .BE => n - 1 - i

/-- The `n` digits of `v` modulo `256 ^ n`. -/
def positional (endian : Endian) (n : ℕ) (v : ℤ) : List UInt8 :=
  (List.range n).map fun i => UInt8.ofNat ((v % 256 ^ n).toNat / 256 ^ endian.place n i % 256)

def positionals (endian : Endian) (fs : List Field) (vs : List ℤ) : List UInt8 :=
  (List.zipWith (fun f v => positional endian f.bytes v) fs vs).flatten

namespace Digits

theorem digits_eq_map (w n : ℕ) :
    digits w n = (List.range w).map fun i => UInt8.ofNat (n / 256 ^ i % 256) := by
  induction w generalizing n with
  | zero => rfl
  | succ w ih =>
    have lowest : UInt8.ofNat n = UInt8.ofNat (n / 256 ^ 0 % 256) := by
      rw [pow_zero, Nat.div_one]
      exact UInt8.toNat_inj.mp (by simp)
    rw [digits, ih, List.range_succ_eq_map, List.map_cons, List.map_map, lowest]
    congr 1
    apply List.map_congr_left
    intro i _
    rw [Function.comp, Nat.div_div_eq_div_mul, ← pow_succ']

theorem digits_mod (w n : ℕ) : digits w (n % 256 ^ w) = digits w n := by
  rw [← number_digits]
  have all := digits_number (digits w n)
  rwa [digits_length] at all

end Digits

section
variable {host endian : Endian} {f : Field} {fs : List Field}

theorem arrange_digits (n m : ℕ) : endian.arrange (Digits.digits n m) =
    (List.range n).map fun i => UInt8.ofNat (m / 256 ^ endian.place n i % 256) := by
  rw [Digits.digits_eq_map]
  cases endian with
  | LE => rfl
  | BE =>
    apply List.ext_getElem
    · simp [Endian.arrange]
    · intro i _ _
      simp [Endian.arrange, Endian.place]

/-- In two's complement the lowest digits are those of the value. -/
theorem toNat_value_mod (src : Object f.type) :
    (src.value host % 256 ^ f.bytes).toNat = src.number host % 256 ^ f.bytes := by
  have whole : (256 : ℤ) ^ f.type.width = 256 ^ f.bytes * 256 ^ (f.type.width - f.bytes) := by
    rw [← pow_add, Nat.add_sub_cancel' f.le_width]
  have same : src.value host % 256 ^ f.bytes = (src.number host : ℤ) % 256 ^ f.bytes := by
    unfold Object.value IntType.decode
    split_ifs
    · rw [whole, Int.sub_mul_emod_self_left]
    · rfl
  rw [same]
  norm_cast

theorem wire_positional (src : Object f.type) :
    wire endian f (src.number host) = positional endian f.bytes (src.value host) := by
  unfold positional
  rw [toNat_value_mod, ← arrange_digits, Digits.digits_mod]
  rfl

variable {σ ε φ : Type} {write : List UInt8 → Program σ ε φ Unit}

theorem writeNum_positional (src : Object f.type) :
    WriteStream.writeNum write host endian f src = write (positional endian f.bytes (src.value host)) := by
  rw [WriteStream.writeNum, ← wire_positional, ← part_wire, apply_ite write]

theorem writeFields_congr {host' : Endian} {vars vars' : Vars fs} (same : vars.values host = vars'.values host') :
    WriteStream.writeFields write host endian vars = WriteStream.writeFields write host' endian vars' := by
  induction vars with
  | nil =>
    cases vars'
    rfl
  | cons o os ih =>
    cases vars' with
    | cons o' os' =>
      rw [Vars.values, Vars.values, List.cons.injEq] at same
      rw [WriteStream.writeFields, WriteStream.writeFields, writeNum_positional, writeNum_positional, same.1,
        ih same.2]

theorem writeFields_file (vars : Vars fs) (out : List UInt8) :
    WriteStream.writeFields OutputFile.write host endian vars out =
      (.ok () (out ++ positionals endian fs (vars.values host)) : Outcome (List UInt8) ε φ Unit) := by
  induction vars generalizing out with
  | nil => simp [WriteStream.writeFields, positionals]
  | cons o os ih =>
    rw [WriteStream.writeFields, writeNum_positional, OutputFile.write, Program.bind_ok (Program.update_run _ out),
      ih, List.append_assoc]
    rfl

/-- What is read is the number that the digits on the stream denote. -/
theorem readNum_denotes {c : Cursor} (valid : c.Valid) (room : c.pos + f.bytes ≤ c.len) (o : Object f.type) :
    ∃ got, readNum host endian f (c, o) = .ok () ({ c with pos := c.pos + f.bytes }, got) ∧
      got.value host = f.type.decode (Digits.number (endian.arrange (c.rest.take f.bytes))) ∧
      ∀ v, f.type.Has v → c.rest.take f.bytes = positional endian f.bytes v →
        got.value host = f.transferred v := by
  have length : (c.rest.take f.bytes).length = f.bytes := Cursor.length_take_rest valid room
  have value : (Object.ofNumber host f.type (Digits.number (endian.arrange (c.rest.take f.bytes)))).value host =
      f.type.decode (Digits.number (endian.arrange (c.rest.take f.bytes))) := by
    rw [Object.value, Object.number_ofNumber (number_lt_width length)]
  refine ⟨_, read_num_run valid room o, value, ?_⟩
  intro v has bytes
  obtain ⟨src, rfl⟩ := Object.exists_value host has
  rw [value, bytes, ← wire_positional, number_wire, decode_mod Object.number_lt, Object.value]

/-- Each number is written as its digits and read from them, on any host, so variables with the same
values make the same file. -/
theorem numbers_positional (write : List UInt8 → Program σ ε φ Unit) :
    (∀ (host endian : Endian) (f : Field) (src : Object f.type),
      WriteStream.writeNum write host endian f src = write (positional endian f.bytes (src.value host))) ∧
    (∀ (host endian : Endian) (f : Field) (c : Cursor) (o : Object f.type), c.Valid → c.pos + f.bytes ≤ c.len →
      ∃ got, readNum host endian f (c, o) = .ok () ({ c with pos := c.pos + f.bytes }, got) ∧
        got.value host = f.type.decode (Digits.number (endian.arrange (c.rest.take f.bytes))) ∧
        ∀ v, f.type.Has v → c.rest.take f.bytes = positional endian f.bytes v →
          got.value host = f.transferred v) ∧
    (∀ (host endian : Endian) (fs : List Field) (vars : Vars fs) (out : List UInt8),
      WriteStream.writeFields OutputFile.write host endian vars out =
        (.ok () (out ++ positionals endian fs (vars.values host)) : Outcome (List UInt8) ε φ Unit)) ∧
    ∀ (host host' endian : Endian) (fs : List Field) (vars vars' : Vars fs),
      vars.values host = vars'.values host' →
        WriteStream.writeFields write host endian vars = WriteStream.writeFields write host' endian vars' := by
  refine ⟨?_, ?_, ?_, ?_⟩
  · intro host endian f src
    exact writeNum_positional src
  · intro host endian f c o valid room
    exact readNum_denotes valid room o
  · intro host endian fs vars out
    exact writeFields_file vars out
  · intro host host' endian fs vars vars' same
    exact writeFields_congr same

/-- The same values on both kinds of host. -/
def mixedOn : Endian → Vars mixed
  | .LE => .cons ⟨[4, 3, 2, 1], rfl⟩ (.cons ⟨[254, 255], rfl⟩ .nil)
  | .BE => .cons ⟨[1, 2, 3, 4], rfl⟩ (.cons ⟨[255, 254], rfl⟩ .nil)

theorem numbers_positional_mixed :
    (∃ out, WriteStream.writeFields OutputFile.write .LE .BE (mixedOn .LE) [] =
        (.ok () out : Outcome (List UInt8) Empty Empty Unit) ∧ out = [2, 3, 4, 255, 254] ∧
      WriteStream.writeFields OutputFile.write .BE .BE (mixedOn .BE) [] =
        (.ok () out : Outcome (List UInt8) Empty Empty Unit)) ∧
    ∃ o got : Object ⟨4, false⟩, readNum .LE .BE ⟨⟨4, false⟩, 3, by decide, by decide⟩
        ({ bytes := [2, 3, 4, 255, 254] }, o) =
          .ok () ({ bytes := [2, 3, 4, 255, 254], pos := 3 }, got) ∧ got.value .LE = 0x020304 := by
  obtain ⟨-, reads, file, same⟩ := @numbers_positional (List UInt8) Empty Empty OutputFile.write
  constructor
  · have wrote := file .LE .BE mixed (mixedOn .LE) []
    have both := same .LE .BE .BE mixed (mixedOn .LE) (mixedOn .BE) (by decide)
    exact ⟨_, wrote, by decide, (congrFun both []).symm.trans wrote⟩
  · obtain ⟨got, read, value, -⟩ := reads .LE .BE ⟨⟨4, false⟩, 3, by decide, by decide⟩
      { bytes := [2, 3, 4, 255, 254] } (Object.zero _) ⟨by decide, by decide, by decide⟩ (by decide)
    exact ⟨_, got, read, value.trans (by decide)⟩

end
end Celestite
