import Celestite.Stream.Client
import Celestite.Stream.WireFormat

/-!
# Numbers on any stream

`read_num` and `read_nums` as code over a stream, continued with the variables they leave, and what
they do on a class whose `read` delivers the bytes ahead; `write_nums` on one whose `write` adds to
what was written before.
-/

namespace Celestite

/-- What becomes of a variable from the bytes that `read` delivers. -/
def Field.arrive (host endian : Endian) (f : Field) (data : List UInt8) : Object.Op f.type Unit := do
  f.clear
  Object.store (f.offset host) data
  f.reverseUnlessHost host endian

namespace Client
variable {α : Type}

/-- The variable after its bytes have arrived. `read` delivers as many as the field has, and those
are stored. -/
def arrived (host endian : Endian) (f : Field) (o : Object f.type) (data : List UInt8) : Object f.type :=
  match f.arrive host endian data o with
  | .ok () o' => o'
  | _ => o

def readNum (host endian : Endian) (f : Field) (o : Object f.type) (next : Object f.type → Client α) :
    Client α :=
  .read f.bytes fun data => next (arrived host endian f o data)

def readFields (host endian : Endian) : (fs : List Field) → Vars fs → (Vars fs → Client α) → Client α
  | [], vars, next => next vars
  | f :: fs, vars, next =>
    readNum host endian f vars.head fun o =>
      readFields host endian fs vars.tail fun os => next (.cons o os)

end Client

/-- `next bs s` says that `bs` is what is ahead; as long as there are enough of them, `read` delivers
these bytes. -/
structure Supplies {σ ε φ : Type} (read : ℕ → Program σ ε φ (List UInt8)) (next : List UInt8 → σ → Prop) :
    Prop where
  read : ∀ {bs s n}, next bs s → n ≤ bs.length → ∃ s', read n s = .ok (bs.take n) s' ∧ next (bs.drop n) s'

/-- `done bs s` says that `bs` was written; `write` adds to it. -/
structure Collects {σ ε φ : Type} (write : List UInt8 → Program σ ε φ Unit) (done : List UInt8 → σ → Prop) :
    Prop where
  write : ∀ {bs s}, done bs s → ∀ data, ∃ s', write data s = .ok () s' ∧ done (bs ++ data) s'

section
variable {host endian : Endian} {f : Field} {fs : List Field} {σ ε φ α : Type} {d : Derived σ ε φ} {s s' : σ}
  {ahead : List UInt8 → σ → Prop} {bs : List UInt8}

theorem arrive_run {data : List UInt8} (length : data.length = f.bytes) (o : Object f.type) :
    f.arrive host endian data o =
      .ok () (Object.ofNumber host f.type (Digits.number (endian.arrange data))) := by
  obtain ⟨o', clears, cleared⟩ := clear_run o
  have fits : f.offset host + data.length ≤ f.type.width := length.symm ▸ offset_room
  have fits' : f.offset host + (host.arrange (endian.arrange data)).length ≤ f.type.width := by
    simpa using fits
  have stores : Object.store (f.offset host) data o' = .ok () (o'.stored (f.offset host) data fits) :=
    dif_pos fits
  rw [Field.arrive, Program.bind_ok clears, Program.bind_ok stores, store_reverse length fits fits',
    stored_eq_ofNumber length cleared]

theorem arrived_eq {data : List UInt8} (length : data.length = f.bytes) (o : Object f.type) :
    Client.arrived host endian f o data =
      Object.ofNumber host f.type (Digits.number (endian.arrange data)) := by
  rw [Client.arrived, arrive_run length]

theorem readFields_cons (o : Object f.type) (os : Vars fs) (next : Vars (f :: fs) → Client α) :
    Client.readFields host endian (f :: fs) (.cons o os) next =
      Client.readNum host endian f o fun o =>
        Client.readFields host endian fs os fun os => next (.cons o os) := rfl

theorem over_read_ok {n : ℕ} {data : List UInt8} {next : List UInt8 → Client α}
    (run : d.read n s = .ok data s') : (Client.read n next).runOn d s = (next data).runOn d s' := by
  rw [Client.runOn, Program.bind_ok run]

theorem over_seek_ok {offset : ℤ} {origin : SeekFrom} {next : Client α}
    (run : d.seek offset origin s = .ok () s') : (Client.seek offset origin next).runOn d s = next.runOn d s' := by
  rw [Client.runOn, Program.bind_ok run]

/-- The code goes on with the numbers that the next bytes stand for. -/
theorem readFields_supplied (supplies : Supplies d.read ahead) (here : ahead bs s)
    (room : Field.total fs ≤ bs.length) (vars : Vars fs) (next : Vars fs → Client α) :
    ∃ s', ahead (bs.drop (Field.total fs)) s' ∧
      (Client.readFields host endian fs vars next).runOn d s =
        (next (parsed host endian fs (bs.take (Field.total fs)))).runOn d s' := by
  induction vars generalizing bs s with
  | nil => exact ⟨s, here, rfl⟩
  | @cons f fs o os ih =>
    rw [Field.total_cons] at room ⊢
    obtain ⟨mid, run, there⟩ := supplies.read here (show f.bytes ≤ bs.length by omega)
    have length : (bs.take f.bytes).length = f.bytes := by
      rw [List.length_take]
      omega
    have room' : Field.total fs ≤ (bs.drop f.bytes).length := by
      rw [List.length_drop]
      omega
    obtain ⟨last, after, others⟩ := ih there room' fun os =>
      next (.cons (Object.ofNumber host f.type (Digits.number (endian.arrange (bs.take f.bytes)))) os)
    refine ⟨last, ?_, ?_⟩
    · rwa [List.drop_drop] at after
    · rw [readFields_cons, Client.readNum, over_read_ok run, arrived_eq length, others, parsed,
        List.take_take, List.drop_take, Nat.min_eq_left (Nat.le_add_right _ _), Nat.add_sub_cancel_left]

theorem positionals_emitted (vars : Vars fs) :
    positionals endian fs (vars.values host) = emitted host endian vars := by
  induction vars with
  | nil => rfl
  | cons o os ih =>
    rw [emitted, wire_positional, ← ih]
    rfl

theorem writeFields_collected {write : List UInt8 → Program σ ε φ Unit} {done : List UInt8 → σ → Prop}
    (collects : Collects write done) (here : done bs s) (vars : Vars fs) :
    ∃ s', WriteStream.writeFields write host endian vars s = .ok () s' ∧
      done (bs ++ positionals endian fs (vars.values host)) s' := by
  induction vars generalizing bs s with
  | nil =>
    refine ⟨s, rfl, ?_⟩
    simpa [positionals] using here
  | @cons f fs o os ih =>
    obtain ⟨mid, run, there⟩ := collects.write here (positional endian f.bytes (o.value host))
    obtain ⟨last, others, after⟩ := ih there
    refine ⟨last, ?_, ?_⟩
    · rw [WriteStream.writeFields, writeNum_positional, Program.bind_ok run, others]
    · rwa [List.append_assoc] at after

end
end Celestite
