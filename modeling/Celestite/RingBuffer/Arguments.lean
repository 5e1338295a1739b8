import Celestite.RingBuffer.Refinement

/-!
# Arguments that refer to the buffer

An argument is read when the new element is constructed, after a full buffer has dropped its first
element. An argument that refers to that element is read too late.
-/

namespace Celestite.RingBuffer
open Concurrency Cyclic

variable {T : Type} {rb mid : RingBuffer T} {xs ys : List T} {arg : Arg T} {i : ℕ}

/-- The calls that construct an element. -/
inductive Insertion where
  | push
  | pushOverwrite
  | emplace
  deriving DecidableEq

def insert : Insertion → Arg T → Op T Reply
  | .push, value => do return .pushed (← push value)
  | .pushOverwrite, value => do
    pushOverwrite value
    return .done
  | .emplace, args => do return .ref (← emplace args)

/-- A reference to the element in a slot, read when the constructor runs. -/
def reference (slot : ℕ) : Arg T := fun slots =>
  match slots slot with
  | some v => .value v
  | none => .dangling

/-- The call with `(*this)[i]` as its argument. -/
def insertOwn (op : Insertion) (i : ℕ) : Op T Reply := do
  let slot ← get i
  insert op (reference slot)

def Insertion.call : Insertion → T → Call T
  | .push => .push
  | .pushOverwrite => .pushOverwrite
  | .emplace => .emplace

theorem insert_plain (op : Insertion) (v : T) : insert op (plain v) = call (op.call v) := by
  cases op <;> rfl

def ends (op : Insertion) (arg : Arg T) (rb mid : RingBuffer T) :
    Outcome (RingBuffer T) Error Fault Reply :=
  match arg mid.slots with
  | .value v => call (op.call v) rb
  | .threw => .threw .element mid
  | .dangling => .undefined .notConstructed

namespace Represents

theorem construct_arg (h : Represents rb xs) (room : xs.length < rb.max) (arg : Arg T) :
    construct (place rb.first rb.max xs.length) arg rb = match arg rb.slots with
      | .value v => construct (place rb.first rb.max xs.length) (plain v) rb
      | .threw => .threw .element rb
      | .dangling => .undefined .notConstructed := by
  have inside : place rb.first rb.max xs.length < rb.max := place_lt h.pos
  have raw : (rb.slots (place rb.first rb.max xs.length)).isNone = true := by
    rw [h.slots _ room]
    simp
  simp only [construct, Program.bind_run, Program.read_run, id_eq, Program.require_run inside,
    Program.require_run raw, plain]
  cases arg rb.slots with
  | value v => rfl
  | threw => rfl
  | dangling => rfl

theorem insert_push (h : Represents rb xs) : insert .push arg rb =
    if xs.length = rb.max then .ok (.pushed false) rb else ends .push arg rb rb := by
  by_cases full : xs.length = rb.max
  · rw [if_pos full]
    simp [insert, push, pushImpl, h.full_iff, full]
  · have room : xs.length < rb.max := lt_of_le_of_ne h.length full
    have built := h.construct_arg room arg
    rw [if_neg full, ends, insert, push, pushImpl]
    cases read : arg rb.slots with
    | value v =>
      rw [read] at built
      simp [Insertion.call, call, push, pushImpl, h.full_iff, full, h.endSlot_run, built]
    | threw =>
      rw [read] at built
      simp [h.full_iff, full, h.endSlot_run, built]
    | dangling =>
      rw [read] at built
      simp [h.full_iff, full, h.endSlot_run, built]

/-- A full buffer makes room before the argument is read. -/
theorem insert_overwrite {op : Insertion} (other : op ≠ .push) (made : popIfFull rb = .ok () mid)
    (rest : Represents mid ys) (room : ys.length < mid.max) : insert op arg rb = ends op arg rb mid := by
  have built := rest.construct_arg room arg
  unfold ends
  cases op with
  | push => contradiction
  | pushOverwrite =>
    rw [insert, pushOverwrite, pushOverwriteImpl]
    cases read : arg mid.slots with
    | value v =>
      rw [read] at built
      simp [Insertion.call, call, pushOverwrite, pushOverwriteImpl, made, rest.endSlot_run, built]
    | threw =>
      rw [read] at built
      simp [made, rest.endSlot_run, built]
    | dangling =>
      rw [read] at built
      simp [made, rest.endSlot_run, built]
  | emplace =>
    rw [insert, emplace]
    cases read : arg mid.slots with
    | value v =>
      rw [read] at built
      simp [Insertion.call, call, emplace, made, rest.endSlot_run, built]
    | threw =>
      rw [read] at built
      simp [made, rest.endSlot_run, built]
    | dangling =>
      rw [read] at built
      simp [made, rest.endSlot_run, built]

theorem insert_plain_run (h : Represents rb xs) (op : Insertion) (v : T) :
    ∃ r r' ys rb', insert op (plain v) rb = .ok r rb' ∧ bounded rb.max xs (op.call v) = some (r', ys) ∧
      Represents rb' ys ∧ rb'.max = rb.max := by
  cases op with
  | push =>
    by_cases full : xs.length = rb.max
    · refine ⟨.pushed false, .pushed false, xs, rb, ?_, by simp [Insertion.call, bounded, full], h, rfl⟩
      rw [h.insert_push, if_pos full]
    · have room : xs.length < rb.max := lt_of_le_of_ne h.length full
      have filled := h.fill_run room v
      refine ⟨.pushed true, .pushed true, xs ++ [v], _, ?_, by simp [Insertion.call, bounded, full],
        h.append room v, rfl⟩
      simp [insert, push, pushImpl, h.full_iff, full, h.endSlot_run, filled, incrementCount]
  | pushOverwrite =>
    obtain ⟨rb', _, run, after, same⟩ := h.emplace_run v
    exact ⟨.done, _, _, rb', by simp [insert, run], rfl, after, same⟩
  | emplace =>
    obtain ⟨rb', run, _, after, same⟩ := h.emplace_run v
    exact ⟨_, _, _, rb', by simp [insert, run]; rfl, rfl, after, same⟩

/-! ### The buffer's own elements -/

theorem insertOwn_run (h : Represents rb xs) (inside : i < xs.length) (op : Insertion) :
    insertOwn op i rb = insert op (reference (place rb.first rb.max i)) rb := by
  rw [insertOwn, Program.bind_ok (h.get_run inside)]

theorem reference_kept (h : Represents rb xs) (inside : i < xs.length) (kept : i ≠ 0) :
    reference (place rb.first rb.max i) (Function.update rb.slots rb.first none) = .value xs[i] := by
  have below := inside.trans_le h.length
  have other : place rb.first rb.max i ≠ rb.first := by
    intro same
    exact kept (place_injective below h.pos (same.trans (place_zero h.first).symm))
  unfold reference
  rw [Function.update_of_ne other, h.slots i below, List.getElem?_eq_getElem inside]

theorem reference_value (h : Represents rb xs) (inside : i < xs.length) :
    reference (place rb.first rb.max i) rb.slots = .value xs[i] := by
  unfold reference
  rw [h.slots i (inside.trans_le h.length), List.getElem?_eq_getElem inside]

theorem popIfFull_full (h : Represents rb xs) (full : xs.length = rb.max) :
    popIfFull rb = .ok () { rb with
      slots := Function.update rb.slots rb.first none
      first := wrap (rb.first + 1) % rb.max
      count := pred rb.count } ∧ Represents { rb with
      slots := Function.update rb.slots rb.first none
      first := wrap (rb.first + 1) % rb.max
      count := pred rb.count } xs.tail := by
  obtain ⟨x, ys, rfl⟩ := List.exists_cons_of_length_pos (full ▸ h.pos)
  exact ⟨by simp [popIfFull, h.full_iff, full, h.pop_run], h.tail⟩

theorem popIfFull_room (h : Represents rb xs) (room : xs.length ≠ rb.max) : popIfFull rb = .ok () rb := by
  simp [popIfFull, h.full_iff, room]

theorem insertOwn_kept (h : Represents rb xs) (inside : i < xs.length) {op : Insertion}
    (kept : ¬(rb.count = rb.max ∧ i = 0 ∧ op ≠ .push)) : insertOwn op i rb = insert op (plain xs[i]) rb := by
  rw [h.insertOwn_run inside, insert_plain]
  have value := h.reference_value inside
  rw [h.full_iff] at kept
  by_cases push : op = .push
  · subst push
    rw [h.insert_push, ends, value]
    split
    · rename_i full
      rw [← insert_plain, h.insert_push, if_pos full]
    · rfl
  · by_cases full : xs.length = rb.max
    · obtain ⟨made, rest⟩ := h.popIfFull_full full
      have apart : i ≠ 0 := fun first => kept ⟨full, first, push⟩
      rw [insert_overwrite push made rest (by simp only [List.length_tail]; omega), ends,
        h.reference_kept inside apart]
    · rw [insert_overwrite push (h.popIfFull_room full) h (lt_of_le_of_ne h.length full), ends, value]

theorem insertOwn_dropped (h : Represents rb xs) (full : rb.count = rb.max) {op : Insertion} (other : op ≠ .push) :
    insertOwn op 0 rb = .undefined .notConstructed := by
  rw [h.full_iff] at full
  have pos := h.pos
  obtain ⟨made, rest⟩ := h.popIfFull_full full
  rw [h.insertOwn_run (by omega), insert_overwrite other made rest (by simp only [List.length_tail]; omega),
    ends]
  simp [reference, place_zero h.first]

end Represents

/-- What the calls are to do with an element of the buffer. -/
def AcceptsOwn (rb : RingBuffer T) (xs : List T) (op : Insertion) (i : ℕ) (v : T) : Prop :=
  ∃ r r' ys rb', insertOwn op i rb = .ok r rb' ∧ insert op (plain v) rb = .ok r rb' ∧
    bounded rb.max xs (op.call v) = some (r', ys) ∧ Represents rb' ys

/-- `push(rb[i])`, `push_overwrite(rb[i])` and `emplace(rb[i])` do what they do with a copy of
`rb[i]`, unless the buffer is full and drops that element first. -/
theorem acceptsOwn_iff (h : Represents rb xs) (inside : i < xs.length) (op : Insertion) :
    AcceptsOwn rb xs op i xs[i] ↔ ¬(rb.count = rb.max ∧ i = 0 ∧ op ≠ .push) := by
  constructor
  · rintro ⟨r, r', ys, rb', own, -⟩ ⟨full, rfl, other⟩
    rw [h.insertOwn_dropped full other] at own
    contradiction
  · intro kept
    obtain ⟨r, r', ys, rb', run, list, after, -⟩ := h.insert_plain_run op xs[i]
    exact ⟨r, r', ys, rb', (h.insertOwn_kept inside kept).trans run, run, list, after⟩

theorem acceptsOwn_iff_second : ∃ rb : RingBuffer ℕ, (lts ℕ 2).Reaches Allowed rb ∧
    rb.contents = [1, 2] ∧ AcceptsOwn rb [1, 2] .emplace 1 2 := by
  obtain ⟨rb, ran, held, count⟩ : ∃ rb, (lts ℕ 2).run Allowed (lts ℕ 2).init [.push 1, .push 2] = some rb ∧
    rb.contents = [1, 2] ∧ rb.count = 2 := ⟨_, rfl, rfl, rfl⟩
  have reached := Lts.run_reaches _ .init ran
  have represents := (represents (by omega) (by unfold allocatorLimit; omega) reached).1
  rw [held] at represents
  exact ⟨rb, reached, held, (acceptsOwn_iff represents (i := 1) (by decide) .emplace).mpr (by simp)⟩

/-- A full buffer is given its first element. -/
theorem own_element_dropped : ∃ rb : RingBuffer ℕ, (lts ℕ 2).Reaches Allowed rb ∧
    rb.contents = [1, 2] ∧ insertOwn .emplace 0 rb = .undefined .notConstructed ∧
    ∃ rb', insert .emplace (plain 1) rb = .ok (.ref 0) rb' ∧ rb'.contents = [2, 1] := by
  obtain ⟨rb, ran, facts⟩ : ∃ rb, (lts ℕ 2).run Allowed (lts ℕ 2).init [.push 1, .push 2] = some rb ∧
    rb.contents = [1, 2] ∧ insertOwn .emplace 0 rb = .undefined .notConstructed ∧
    ∃ rb', insert .emplace (plain 1) rb = .ok (.ref 0) rb' ∧ rb'.contents = [2, 1] :=
    ⟨_, rfl, rfl, rfl, _, rfl, rfl⟩
  exact ⟨rb, Lts.run_reaches _ .init ran, facts⟩

end Celestite.RingBuffer
