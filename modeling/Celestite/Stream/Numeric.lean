import Celestite.Stream.Cursor
import Celestite.Stream.Integer

/-!
# Numbers on a stream

`ReadStream::read_num` and `WriteStream::write_num` over a memory cursor. `host` is
`target_endian`, a `Field` the template arguments.
-/

namespace Celestite

/-- `T` and `BytesToRead` or `BytesToWrite`, with what `static_assert` asks of them. -/
structure Field where
  type : IntType
  bytes : ℕ
  le_width : bytes ≤ type.width
  whole : type.signed → bytes = type.width
  deriving DecidableEq

abbrev Object.Op (t : IntType) (α : Type) := Program (Object t) StreamIoError MemoryFault α

namespace Object
variable {t : IntType}

def zero (t : IntType) : Object t := ⟨List.replicate t.width 0, List.length_replicate⟩

def part (o : Object t) (offset n : ℕ) : List UInt8 := (o.bytes.drop offset).take n

def stored (o : Object t) (offset : ℕ) (data : List UInt8) (room : offset + data.length ≤ t.width) :
    Object t where
  bytes := o.bytes.take offset ++ data ++ o.bytes.drop (offset + data.length)
  length_bytes := by
    have := o.length_bytes
    simp only [List.length_append, List.length_take, List.length_drop]
    omega

theorem bytes_stored {o : Object t} {offset : ℕ} {data : List UInt8}
    (room : offset + data.length ≤ t.width) :
    (o.stored offset data room).bytes =
      o.bytes.take offset ++ data ++ o.bytes.drop (offset + data.length) := rfl

def store (offset : ℕ) (data : List UInt8) : Op t Unit := fun o =>
  if room : offset + data.length ≤ t.width then .ok () (o.stored offset data room)
  else .undefined .outsideObject

/-- `std::reverse` of `n` bytes. -/
def reverse (offset n : ℕ) : Op t Unit := do
  let o ← Program.read id
  store offset (o.part offset n).reverse

end Object

namespace Field

def offset (host : Endian) (f : Field) : ℕ :=
  match host with
  | .LE => 0
  | .BE => f.type.width - f.bytes

/-- `if constexpr (BytesToRead < sizeof(T)) dest = 0;` -/
def clear (f : Field) : Object.Op f.type Unit :=
  if f.bytes < f.type.width then Program.update fun _ => Object.zero f.type else pure ()

def reverseUnlessHost (host endian : Endian) (f : Field) : Object.Op f.type Unit :=
  if endian ≠ host then Object.reverse (f.offset host) f.bytes else pure ()

end Field

abbrev Dest (t : IntType) := Cursor × Object t

namespace Dest
variable {t : IntType} {α : Type}

def onCursor (p : Cursor.Op α) : Program (Dest t) StreamIoError MemoryFault α :=
  p.focus Prod.fst fun s c => (c, s.2)

def onObject (p : Object.Op t α) : Program (Dest t) StreamIoError MemoryFault α :=
  p.focus Prod.snd fun s o => (s.1, o)

variable {a : α} {c c' : Cursor} {o o' : Object t}

theorem onCursor_ok {p : Cursor.Op α} (h : p c = .ok a c') : onCursor p (c, o) = .ok a (c', o) :=
  Program.focus_ok h

theorem onObject_ok {p : Object.Op t α} (h : p o = .ok a o') : onObject p (c, o) = .ok a (c, o') :=
  Program.focus_ok h

end Dest

def readNum (host endian : Endian) (f : Field) : Program (Dest f.type) StreamIoError MemoryFault Unit := do
  Dest.onObject f.clear
  let data ← Dest.onCursor (Cursor.read f.bytes)
  Dest.onObject (Object.store (f.offset host) data)
  Dest.onObject (f.reverseUnlessHost host endian)

def writeNum (host endian : Endian) (f : Field) (src : Object f.type) : Cursor.Op Unit :=
  let p := src.part (f.offset host) f.bytes
  if endian ≠ host then Cursor.write p.reverse else Cursor.write p

/-- The bytes of a number on the stream, whatever the host. -/
def wire (endian : Endian) (f : Field) (n : ℕ) : List UInt8 :=
  endian.arrange (Digits.digits f.bytes n)

@[simp] theorem length_wire (endian : Endian) (f : Field) (n : ℕ) :
    (wire endian f n).length = f.bytes := by
  rw [wire, Endian.length_arrange, Digits.digits_length]

section
variable {host endian : Endian} {f : Field}

theorem arrange_part (o : Object f.type) :
    host.arrange (o.part (f.offset host) f.bytes) = (host.arrange o.bytes).take f.bytes := by
  cases host with
  | LE => rfl
  | BE =>
    have length := o.length_bytes
    have le_width := f.le_width
    have all : ((o.bytes.drop (f.type.width - f.bytes)).take f.bytes) =
        o.bytes.drop (f.type.width - f.bytes) := by
      apply List.take_of_length_le
      rw [List.length_drop]
      omega
    simp only [Endian.arrange, Object.part, Field.offset]
    rw [all, List.reverse_drop]
    congr 1
    omega

/-- The bytes that are written depend on the digits of the number only. -/
theorem part_wire (src : Object f.type) :
    (if endian ≠ host then (src.part (f.offset host) f.bytes).reverse else src.part (f.offset host) f.bytes) =
      wire endian f (src.number host) := by
  have lowest : host.arrange (src.part (f.offset host) f.bytes) =
      Digits.digits f.bytes (src.number host) := by
    rw [arrange_part, Object.arrange_bytes, Digits.take_digits f.le_width]
  have part : src.part (f.offset host) f.bytes =
      host.arrange (Digits.digits f.bytes (src.number host)) := by
    rw [← lowest, Endian.arrange_arrange]
  rw [part, wire]
  split_ifs with differ
  · rw [Endian.reverse_arrange differ]
  · rw [not_not.mp differ]

theorem write_num_wire (src : Object f.type) :
    writeNum host endian f src = Cursor.write (wire endian f (src.number host)) := by
  rw [writeNum, ← part_wire, apply_ite Cursor.write]

theorem offset_room : f.offset host + f.bytes ≤ f.type.width := by
  have le_width := f.le_width
  cases host <;> simp only [Field.offset] <;> omega

theorem arrange_stored {o : Object f.type} (cleared : f.bytes = f.type.width ∨ o = Object.zero f.type)
    {data : List UInt8} (length : data.length = f.bytes)
    (room : f.offset host + data.length ≤ f.type.width) :
    host.arrange (o.stored (f.offset host) data room).bytes =
      host.arrange data ++ List.replicate (f.type.width - f.bytes) 0 := by
  have all := o.length_bytes
  have le_width := f.le_width
  cases host with
  | LE =>
    have above : o.bytes.drop f.bytes = List.replicate (f.type.width - f.bytes) 0 := by
      rcases cleared with whole | rfl
      · rw [List.drop_of_length_le (by omega), whole, Nat.sub_self, List.replicate_zero]
      · rw [Object.zero, List.drop_replicate]
    simp only [Endian.arrange, Object.stored, Field.offset, List.take_zero, List.nil_append,
      Nat.zero_add, length, above]
  | BE =>
    have after : o.bytes.drop (f.type.width - f.bytes + f.bytes) = [] :=
      List.drop_of_length_le (by omega)
    have before : o.bytes.take (f.type.width - f.bytes) =
        List.replicate (f.type.width - f.bytes) 0 := by
      rcases cleared with whole | rfl
      · rw [whole, Nat.sub_self, List.take_zero, List.replicate_zero]
      · rw [Object.zero, List.take_replicate, Nat.min_eq_left (Nat.sub_le _ _)]
    simp only [Endian.arrange, Object.stored, Field.offset, length, after, before,
      List.append_nil, List.reverse_append, List.reverse_replicate]

theorem part_stored {t : IntType} {o : Object t} {offset : ℕ} {data : List UInt8}
    (room : offset + data.length ≤ t.width) : (o.stored offset data room).part offset data.length = data := by
  have all := o.length_bytes
  have before : (o.bytes.take offset).length = offset := by
    rw [List.length_take]
    omega
  rw [Object.part, Object.bytes_stored, List.append_assoc, List.drop_append_of_le_length before.ge,
    List.drop_of_length_le before.le, List.nil_append, List.take_left]

theorem stored_stored {t : IntType} {o : Object t} {offset : ℕ} {data data' : List UInt8}
    (room : offset + data.length ≤ t.width) (room' : offset + data'.length ≤ t.width)
    (length : data.length = data'.length) :
    (o.stored offset data room).stored offset data' room' = o.stored offset data' room' := by
  have all := o.length_bytes
  have before : (o.bytes.take offset).length = offset := by
    rw [List.length_take]
    omega
  apply Object.ext
  simp only [Object.stored]
  congr 1
  · rw [List.append_assoc, List.take_append_of_le_length before.ge, List.take_of_length_le before.le]
  · rw [← length, List.append_assoc, List.drop_append, before, Nat.add_sub_cancel_left, List.drop_append]
    simp [before]

theorem reverse_stored {t : IntType} {o : Object t} {offset : ℕ} {data : List UInt8}
    (room : offset + data.length ≤ t.width) (room' : offset + data.reverse.length ≤ t.width) :
    Object.reverse offset data.length (o.stored offset data room) =
      .ok () (o.stored offset data.reverse room') := by
  rw [Object.reverse, Program.bind_ok (Program.read_run id _), id, part_stored, Object.store,
    dif_pos room', stored_stored room room' data.length_reverse.symm]

theorem store_reverse {o : Object f.type} {data : List UInt8} (length : data.length = f.bytes)
    (room : f.offset host + data.length ≤ f.type.width)
    (room' : f.offset host + (host.arrange (endian.arrange data)).length ≤ f.type.width) :
    f.reverseUnlessHost host endian (o.stored (f.offset host) data room) =
      .ok () (o.stored (f.offset host) (host.arrange (endian.arrange data)) room') := by
  rw [Field.reverseUnlessHost]
  split_ifs with differ
  · simp only [Endian.arrange_arrange_other differ, ← length]
    exact reverse_stored room _
  · simp only [not_not.mp differ, Endian.arrange_arrange, Program.pure_run]

theorem clear_run (o : Object f.type) : ∃ o', f.clear o = .ok () o' ∧
    (f.bytes = f.type.width ∨ o' = Object.zero f.type) := by
  have le_width := f.le_width
  rw [Field.clear]
  split_ifs with part
  · exact ⟨_, rfl, .inr rfl⟩
  · exact ⟨o, rfl, .inl (by omega)⟩

theorem stored_eq_ofNumber {o : Object f.type} {data : List UInt8} (length : data.length = f.bytes)
    (cleared : f.bytes = f.type.width ∨ o = Object.zero f.type)
    (room : f.offset host + (host.arrange (endian.arrange data)).length ≤ f.type.width) :
    o.stored (f.offset host) (host.arrange (endian.arrange data)) room =
      Object.ofNumber host f.type (Digits.number (endian.arrange data)) := by
  have ordered : (host.arrange (endian.arrange data)).length = f.bytes := by simpa using length
  have length' : (endian.arrange data).length = f.bytes := by simpa using length
  have bytes := arrange_stored cleared ordered room
  rw [Endian.arrange_arrange, ← length', ← Digits.digits_number_wide (length' ▸ f.le_width)] at bytes
  apply Object.ext
  rw [Object.bytes_ofNumber, ← bytes, Endian.arrange_arrange]

/-- What is read depends on the bytes of the stream only. -/
theorem read_num_run {c : Cursor} (valid : c.Valid) (room : c.pos + f.bytes ≤ c.len)
    (o : Object f.type) :
    readNum host endian f (c, o) = .ok () ({ c with pos := c.pos + f.bytes },
      Object.ofNumber host f.type (Digits.number (endian.arrange (c.rest.take f.bytes)))) := by
  have reads := Cursor.read_fits valid room
  have length : (c.rest.take f.bytes).length = f.bytes := Cursor.length_take_rest valid room
  generalize c.rest.take f.bytes = data at reads length
  obtain ⟨o', clears, cleared⟩ := clear_run o
  have fits : f.offset host + data.length ≤ f.type.width := length.symm ▸ offset_room
  have fits' : f.offset host + (host.arrange (endian.arrange data)).length ≤ f.type.width := by
    simpa using fits
  have stores : Object.store (f.offset host) data o' = .ok () (o'.stored (f.offset host) data fits) :=
    dif_pos fits
  rw [readNum, Program.bind_ok (Dest.onObject_ok clears), Program.bind_ok (Dest.onCursor_ok reads),
    Program.bind_ok (Dest.onObject_ok stores), Dest.onObject_ok (store_reverse length fits fits'),
    stored_eq_ofNumber length cleared]

end
end Celestite
