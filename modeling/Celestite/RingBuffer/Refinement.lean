import Celestite.Concurrency.Lts
import Celestite.RingBuffer.Model
import Celestite.Sequential.Cyclic

/-!
# The ring buffer refines a bounded list

`Represents` relates a buffer to the list of its elements. Each operation that is called where
it may be called does nothing undefined and does to the list what its name says.
-/

namespace Celestite.RingBuffer
open Concurrency Cyclic

variable {T : Type} {rb : RingBuffer T} {xs : List T}

/-- The largest number of elements `std::allocator` grants. -/
def allocatorLimit : ℕ := 2 ^ 63 - 1

/-- The slots from `first_` on hold the elements of the list, in order, and no slot holds
anything else. -/
structure Represents (rb : RingBuffer T) (xs : List T) : Prop where
  granted : rb.max ≤ allocatorLimit
  first : rb.first < rb.max
  count : rb.count = xs.length
  length : xs.length ≤ rb.max
  slots : ∀ i < rb.max, rb.slots (place rb.first rb.max i) = xs[i]?
  outside : ∀ j, rb.max ≤ j → rb.slots j = none

namespace Represents

theorem init {max : ℕ} (pos : 1 ≤ max) (granted : max ≤ allocatorLimit) :
    Represents ({ max := max } : RingBuffer T) [] where
  granted := granted
  first := pos
  count := rfl
  length := Nat.zero_le _
  slots _ _ := rfl
  outside _ _ := rfl

theorem pos (h : Represents rb xs) : 0 < rb.max := Nat.lt_of_le_of_lt (Nat.zero_le _) h.first

theorem wrap_first_add (h : Represents rb xs) {i : ℕ} (le : i ≤ rb.max) :
    wrap (rb.first + i) = rb.first + i := by
  have := h.granted
  have := h.first
  exact wrap_of_lt (by unfold allocatorLimit at *; omega)

theorem modMax_run (h : Represents rb xs) (n : ℕ) : modMax n rb = .ok (n % rb.max) rb := by
  simp [modMax, Program.require_run h.pos.ne']

theorem endSlot_run (h : Represents rb xs) :
    endSlot rb = .ok (place rb.first rb.max xs.length) rb := by
  simp [endSlot, h.modMax_run, h.count, h.wrap_first_add h.length, place]

theorem construct_run {i : ℕ} (inside : i < rb.max) (raw : rb.slots i = none) (v : T) :
    construct i (plain v) rb = .ok () { rb with slots := Function.update rb.slots i (some v) } := by
  simp [construct, plain, Program.require_run inside, Program.require_run, raw]

theorem destroy_run {i : ℕ} (inside : i < rb.max) {v : T} (here : rb.slots i = some v) :
    destroy i rb = .ok () { rb with slots := Function.update rb.slots i none } := by
  simp [destroy, Program.require_run inside, Program.require_run, here]

theorem increment (h : Represents rb xs) (room : xs.length < rb.max) :
    wrap (rb.count + 1) = xs.length + 1 := by
  have := h.granted
  rw [h.count]
  exact wrap_of_lt (by unfold allocatorLimit at *; omega)

theorem decrement (h : Represents rb xs) (held : xs ≠ []) : pred rb.count = xs.length - 1 := by
  have := h.granted
  have := h.length
  rw [h.count]
  exact pred_of_pos (List.length_pos_iff.mpr held) (by unfold allocatorLimit at *; omega)

theorem append (h : Represents rb xs) (room : xs.length < rb.max) (v : T) :
    Represents { rb with
      slots := Function.update rb.slots (place rb.first rb.max xs.length) (some v)
      count := wrap (rb.count + 1) } (xs ++ [v]) where
  granted := h.granted
  first := h.first
  count := by simp [h.increment room]
  length := by simpa using Nat.succ_le_of_lt room
  slots i lt := by
    have lt : i < rb.max := lt
    rcases eq_or_ne i xs.length with rfl | apart
    · simp
    · have other : place rb.first rb.max i ≠ place rb.first rb.max xs.length :=
        fun same => apart (place_injective lt room same)
      simp only [Function.update_of_ne other, h.slots i lt]
      rcases Nat.lt_or_gt_of_ne apart with inside | beyond
      · rw [List.getElem?_append_left inside]
      · rw [List.getElem?_eq_none (by omega), List.getElem?_eq_none (by simp; omega)]
  outside j ge := by
    have ge : rb.max ≤ j := ge
    have apart : j ≠ place rb.first rb.max xs.length := by
      have : place rb.first rb.max xs.length < rb.max := place_lt h.pos
      omega
    simpa [apart] using h.outside j ge

theorem tail {x : T} (h : Represents rb (x :: xs)) :
    Represents { rb with
      slots := Function.update rb.slots rb.first none
      first := wrap (rb.first + 1) % rb.max
      count := pred rb.count } xs where
  granted := h.granted
  first := Nat.mod_lt _ h.pos
  count := by simp [h.decrement (List.cons_ne_nil x xs)]
  length := by have := h.length; simp at this; simp; omega
  slots i lt := by
    have lt : i < rb.max := lt
    have length := h.length
    simp only [List.length_cons] at length
    simp only [h.wrap_first_add (i := 1) h.pos, place_succ]
    rcases Nat.lt_or_ge (i + 1) rb.max with inside | last
    · have other : place rb.first rb.max (i + 1) ≠ rb.first := by
        intro same
        have := place_injective inside h.pos (same.trans (place_zero h.first).symm)
        omega
      rw [Function.update_of_ne other, h.slots _ inside, List.getElem?_cons_succ]
    · obtain same : i + 1 = rb.max := by omega
      rw [same, place_turn h.first, Function.update_self, List.getElem?_eq_none (by omega)]
  outside j ge := by
    have ge : rb.max ≤ j := ge
    have := h.first
    simpa [show j ≠ rb.first by omega] using h.outside j ge

theorem dropLast (h : Represents rb xs) (held : xs ≠ []) :
    Represents { rb with
      slots := Function.update rb.slots (place rb.first rb.max (xs.length - 1)) none
      count := pred rb.count } xs.dropLast where
  granted := h.granted
  first := h.first
  count := by simp [h.decrement held]
  length := by have := h.length; simp; omega
  slots i lt := by
    have lt : i < rb.max := lt
    have pos := List.length_pos_iff.mpr held
    have length := h.length
    rcases eq_or_ne i (xs.length - 1) with rfl | apart
    · simp
    · have other : place rb.first rb.max i ≠ place rb.first rb.max (xs.length - 1) :=
        fun same => apart (place_injective lt (by omega) same)
      simp only [Function.update_of_ne other, h.slots i lt, List.getElem?_dropLast]
      split
      · rfl
      · exact List.getElem?_eq_none (by omega)
  outside j ge := by
    have ge : rb.max ≤ j := ge
    have apart : j ≠ place rb.first rb.max (xs.length - 1) := by
      have : place rb.first rb.max (xs.length - 1) < rb.max := place_lt h.pos
      omega
    simpa [apart] using h.outside j ge

theorem full_iff (h : Represents rb xs) : rb.count = rb.max ↔ xs.length = rb.max := by
  rw [h.count]

theorem fill_run (h : Represents rb xs) (room : xs.length < rb.max) (v : T) :
    construct (place rb.first rb.max xs.length) (plain v) rb = .ok () { rb with
      slots := Function.update rb.slots (place rb.first rb.max xs.length) (some v) } := by
  refine construct_run (place_lt h.pos) ?_ v
  rw [h.slots _ room]
  simp

theorem pop_run {x : T} (h : Represents rb (x :: xs)) : pop rb = .ok () { rb with
    slots := Function.update rb.slots rb.first none
    first := wrap (rb.first + 1) % rb.max
    count := pred rb.count } := by
  have here : rb.slots rb.first = some x := by
    have := h.slots 0 h.pos
    rwa [place_zero h.first] at this
  have left : modMax (wrap (rb.first + 1)) { rb with slots := Function.update rb.slots rb.first none } =
      .ok (wrap (rb.first + 1) % rb.max) { rb with slots := Function.update rb.slots rb.first none } := by
    simp [modMax, Program.require_run h.pos.ne']
  simp [pop, destroy_run h.first here, left, decrementCount]

theorem popBack_run (h : Represents rb xs) (held : xs ≠ []) : popBack rb = .ok () { rb with
    slots := Function.update rb.slots (place rb.first rb.max (xs.length - 1)) none
    count := pred rb.count } := by
  have pos := List.length_pos_iff.mpr held
  have length := h.length
  have granted := h.granted
  have first := h.first
  have last : pred (wrap (rb.first + rb.count)) = rb.first + (xs.length - 1) := by
    rw [h.count, h.wrap_first_add length, pred_of_pos (by omega) (by unfold allocatorLimit at *; omega)]
    omega
  have here : rb.slots (place rb.first rb.max (xs.length - 1)) = some (xs.getLast held) := by
    rw [h.slots _ (by omega), List.getLast_eq_getElem, List.getElem?_eq_getElem]
  have destroyed := destroy_run (place_lt h.pos) here
  simp only [place] at destroyed
  simp [popBack, last, h.modMax_run, destroyed, decrementCount, place]

theorem get_run (h : Represents rb xs) {i : ℕ} (inside : i < xs.length) :
    get i rb = .ok (place rb.first rb.max i) rb := by
  simp [get, h.wrap_first_add (inside.le.trans h.length), h.modMax_run, place]

end Represents

/-! ### Sequences of calls -/

inductive Call (T : Type) where
  | push (value : T)
  | pushOverwrite (value : T)
  | emplace (value : T)
  | pop
  | popBack
  | get (i : ℕ)
  | getAt (i : ℕ)
  | front
  | back
  | size

/-- What a call returns. A reference is given by its slot in the buffer, by its index in a list. -/
inductive Reply where
  | pushed (accepted : Bool)
  | done
  | ref (n : ℕ)
  | size (n : ℕ)
  | outOfRange
  deriving DecidableEq

def Reply.map (f : ℕ → ℕ) : Reply → Reply
  | ref n => ref (f n)
  | r => r

def call : Call T → Op T Reply
  | .push v => do return .pushed (← push (plain v))
  | .pushOverwrite v => do
    pushOverwrite (plain v)
    return .done
  | .emplace v => do return .ref (← emplace (plain v))
  | .pop => do
    pop
    return .done
  | .popBack => do
    popBack
    return .done
  | .get i => do return .ref (← get i)
  | .getAt i => do return .ref (← getAt i)
  | .front => do return .ref (← front)
  | .back => do return .ref (← back)
  | .size => do return .size (← size)

def perform (rb : RingBuffer T) (c : Call T) : Option (Reply × RingBuffer T) :=
  match call c rb with
  | .ok r rb' => some (r, rb')
  | .threw .outOfRange rb' => some (.outOfRange, rb')
  | _ => none

def Allowed (rb : RingBuffer T) : Call T → Prop
  | .pop | .popBack | .front | .back => 0 < rb.count
  | .get i => i < rb.count
  | _ => True

instance (rb : RingBuffer T) (c : Call T) : Decidable (Allowed rb c) :=
  match c with
  | .pop | .popBack | .front | .back => inferInstanceAs (Decidable (0 < rb.count))
  | .get i => inferInstanceAs (Decidable (i < rb.count))
  | .push _ | .pushOverwrite _ | .emplace _ | .getAt _ | .size => isTrue trivial

def lts (T : Type) (max : ℕ) : Concurrency.Lts (RingBuffer T) (Call T) where
  init := { max := max }
  step rb c := (perform rb c).map Prod.snd

def overwrite (max : ℕ) (xs : List T) (v : T) : List T :=
  (if xs.length = max then xs.tail else xs) ++ [v]

def bounded (max : ℕ) (xs : List T) : Call T → Option (Reply × List T)
  | .push v => if xs.length = max then some (.pushed false, xs) else some (.pushed true, xs ++ [v])
  | .pushOverwrite v => some (.done, overwrite max xs v)
  | .emplace v => some (.ref ((overwrite max xs v).length - 1), overwrite max xs v)
  | .pop => if xs = [] then none else some (.done, xs.tail)
  | .popBack => if xs = [] then none else some (.done, xs.dropLast)
  | .get i => if i < xs.length then some (.ref i, xs) else none
  | .getAt i => some (if i < xs.length then .ref i else .outOfRange, xs)
  | .front => if xs = [] then none else some (.ref 0, xs)
  | .back => if xs = [] then none else some (.ref (xs.length - 1), xs)
  | .size => some (.size xs.length, xs)

def Simulates (rb : RingBuffer T) (xs : List T) (c : Call T) : Prop :=
  ∃ r ys rb', bounded rb.max xs c = some (r, ys) ∧
    perform rb c = some (r.map (place rb'.first rb'.max), rb') ∧ Represents rb' ys ∧ rb'.max = rb.max

namespace Represents

theorem push_simulates (h : Represents rb xs) (v : T) : Simulates rb xs (.push v) := by
  by_cases full : xs.length = rb.max
  · refine ⟨.pushed false, xs, rb, by simp [bounded, full], ?_, h, rfl⟩
    simp [perform, call, push, pushImpl, h.count, full, Reply.map]
  · have room : xs.length < rb.max := lt_of_le_of_ne h.length full
    refine ⟨.pushed true, xs ++ [v], _, by simp [bounded, full], ?_, h.append room v, rfl⟩
    have filled := h.fill_run room v
    simp [perform, call, push, pushImpl, h.full_iff, full, h.endSlot_run, filled, incrementCount,
      Reply.map]

theorem room_run (h : Represents rb xs) :
    ∃ rb' ys, popIfFull rb = .ok () rb' ∧ Represents rb' ys ∧
      ys.length < rb'.max ∧ rb'.max = rb.max ∧ ∀ v, overwrite rb.max xs v = ys ++ [v] := by
  by_cases full : xs.length = rb.max
  · obtain ⟨x, ys, rfl⟩ := List.exists_cons_of_length_pos (full ▸ h.pos)
    refine ⟨_, ys, ?_, h.tail, ?_, rfl, fun v => by simp [overwrite, full]⟩
    · simp [popIfFull, h.full_iff, full, h.pop_run]
    · simp only [List.length_cons] at full
      simp only
      omega
  · refine ⟨rb, xs, ?_, h, lt_of_le_of_ne h.length full, rfl, fun v => by simp [overwrite, full]⟩
    simp [popIfFull, h.full_iff, full]

theorem emplace_run (h : Represents rb xs) (v : T) :
    ∃ rb', emplace (plain v) rb = .ok (place rb'.first rb'.max ((overwrite rb.max xs v).length - 1)) rb' ∧
      pushOverwrite (plain v) rb = .ok () rb' ∧ Represents rb' (overwrite rb.max xs v) ∧
      rb'.max = rb.max := by
  obtain ⟨mid, ys, made, rest, room, same, list⟩ := h.room_run
  have filled := rest.fill_run room v
  rw [list v]
  refine ⟨_, ?_, ?_, rest.append room v, same⟩
  · simp [emplace, made, rest.endSlot_run, filled, incrementCount]
  · simp [pushOverwrite, pushOverwriteImpl, made, rest.endSlot_run, filled, incrementCount]

theorem held_iff (h : Represents rb xs) : 0 < rb.count ↔ xs ≠ [] := by
  rw [h.count, List.length_pos_iff]

theorem simulates (h : Represents rb xs) {c : Call T} (allowed : Allowed rb c) : Simulates rb xs c := by
  cases c with
  | push v => exact h.push_simulates v
  | pushOverwrite v =>
    obtain ⟨rb', _, run, after, same⟩ := h.emplace_run v
    exact ⟨.done, _, rb', rfl, by simp [perform, call, run, Reply.map], after, same⟩
  | emplace v =>
    obtain ⟨rb', run, _, after, same⟩ := h.emplace_run v
    exact ⟨_, _, rb', rfl, by simp [perform, call, run, Reply.map], after, same⟩
  | pop =>
    obtain ⟨x, ys, rfl⟩ := List.exists_cons_of_ne_nil (h.held_iff.mp allowed)
    exact ⟨.done, ys, _, by simp [bounded], by simp [perform, call, h.pop_run, Reply.map], h.tail, rfl⟩
  | popBack =>
    have held := h.held_iff.mp allowed
    exact ⟨.done, xs.dropLast, _, by simp [bounded, held],
      by simp [perform, call, h.popBack_run held, Reply.map], h.dropLast held, rfl⟩
  | get i =>
    have inside : i < xs.length := h.count ▸ allowed
    exact ⟨.ref i, xs, rb, by simp [bounded, inside], by simp [perform, call, h.get_run inside, Reply.map],
      h, rfl⟩
  | getAt i =>
    by_cases inside : i < xs.length
    · exact ⟨.ref i, xs, rb, by simp [bounded, inside],
        by simp [perform, call, getAt, h.count, Nat.not_le.mpr inside, h.get_run inside, Reply.map], h, rfl⟩
    · exact ⟨.outOfRange, xs, rb, by simp [bounded, inside],
        by simp [perform, call, getAt, h.count, Nat.not_lt.mp inside, Reply.map], h, rfl⟩
  | front =>
    have held := h.held_iff.mp allowed
    exact ⟨.ref 0, xs, rb, by simp [bounded, held],
      by simp [perform, call, front, h.get_run (List.length_pos_iff.mpr held), Reply.map], h, rfl⟩
  | back =>
    have held := h.held_iff.mp allowed
    have inside : xs.length - 1 < xs.length := by have := List.length_pos_iff.mpr held; omega
    exact ⟨.ref (xs.length - 1), xs, rb, by simp [bounded, held],
      by simp [perform, call, back, h.decrement held, h.get_run inside, Reply.map], h, rfl⟩
  | size =>
    exact ⟨.size xs.length, xs, rb, rfl, by simp [perform, call, size, h.count, Reply.map], h, rfl⟩

theorem constructed (h : Represents rb xs) (j : ℕ) :
    (rb.slots j).isSome = true ↔ ∃ i < rb.count, j = place rb.first rb.max i := by
  constructor
  · intro here
    have inside : j < rb.max := by
      by_contra beyond
      simp [h.outside j (Nat.not_lt.mp beyond)] at here
    obtain ⟨i, lt, rfl⟩ := place_surjective h.first inside
    rw [h.slots i lt] at here
    exact ⟨i, h.count ▸ by simpa using here, rfl⟩
  · rintro ⟨i, lt, rfl⟩
    have inside : i < xs.length := h.count ▸ lt
    simpa [h.slots i (inside.trans_le h.length)] using inside

end Represents

/-- The list `[(*this)[0], ..., (*this)[count_ - 1]]`. -/
def contents (rb : RingBuffer T) : List T :=
  (List.range rb.count).filterMap fun i => rb.slots (place rb.first rb.max i)

theorem filterMap_getElem? (xs : List T) : (List.range xs.length).filterMap (xs[·]?) = xs := by
  induction xs using List.reverseRec with
  | nil => rfl
  | append_singleton xs v ih =>
    have inner : (List.range xs.length).filterMap ((xs ++ [v])[·]?) =
        (List.range xs.length).filterMap (xs[·]?) :=
      List.filterMap_congr fun i member => List.getElem?_append_left (List.mem_range.mp member)
    rw [List.length_append, List.length_singleton, List.range_succ, List.filterMap_append, inner, ih]
    simp

theorem Represents.contents_eq (h : Represents rb xs) : rb.contents = xs := by
  have same : rb.contents = (List.range xs.length).filterMap (xs[·]?) := by
    rw [contents, h.count]
    refine List.filterMap_congr fun i member => h.slots i ?_
    exact (List.mem_range.mp member).trans_le h.length
  rw [same, filterMap_getElem?]

theorem represents {max : ℕ} (pos : 1 ≤ max) (granted : max ≤ allocatorLimit)
    (reached : (lts T max).Reaches Allowed rb) : Represents rb rb.contents ∧ rb.max = max := by
  refine reached.invariant (I := fun rb => Represents rb rb.contents ∧ rb.max = max) ⟨.init pos granted, rfl⟩
    fun {rb c rb'} _ ih allowed taken => ?_
  obtain ⟨r, ys, next, _, performed, after, same⟩ := ih.1.simulates allowed
  obtain rfl : next = rb' := by simpa [lts, performed] using taken
  exact ⟨after.contents_eq.symm ▸ after, same.trans ih.2⟩

/-- The buffer refines a list of at most `max` elements: its slots are those of the list, and each
call does to the list what it does to the buffer and nothing undefined. -/
theorem refines_bounded {max : ℕ} (pos : 1 ≤ max) (granted : max ≤ allocatorLimit)
    (reached : (lts T max).Reaches Allowed rb) :
    rb.first < max ∧ rb.count ≤ max ∧
    (∀ j, (rb.slots j).isSome = true ↔ ∃ i < rb.count, j = (rb.first + i) % max) ∧
    rb.contents.length = rb.count ∧
    (∀ i < rb.count, rb.slots ((rb.first + i) % max) = rb.contents[i]?) ∧
    ∀ c, Allowed rb c → ∃ r rb', perform rb c = some (r.map fun i => (rb'.first + i) % max, rb') ∧
      bounded max rb.contents c = some (r, rb'.contents) := by
  obtain ⟨h, rfl⟩ := represents pos granted reached
  refine ⟨h.first, h.count ▸ h.length, h.constructed, h.count.symm, fun i lt => h.slots i ?_, ?_⟩
  · exact lt.trans_le (h.count ▸ h.length)
  · intro c allowed
    obtain ⟨r, ys, rb', list, performed, after, same⟩ := h.simulates allowed
    rw [same] at performed
    exact ⟨r, rb', performed, after.contents_eq ▸ list⟩

/-- Two slots, a third element that drops the first one, and a `pop_back`. -/
theorem refines_bounded_wrapped : ∃ rb rb', (lts ℕ 2).Reaches Allowed rb ∧ rb.first = 1 ∧
    rb.contents = [2, 3] ∧ perform rb .popBack = some (.done, rb') ∧ rb'.contents = [2] := by
  obtain ⟨rb, ran, first, held, count⟩ : ∃ rb, (lts ℕ 2).run Allowed (lts ℕ 2).init
      [.push 1, .push 2, .emplace 3] = some rb ∧ rb.first = 1 ∧ rb.contents = [2, 3] ∧ 0 < rb.count :=
    ⟨_, rfl, rfl, rfl, by decide⟩
  have reached := Lts.run_reaches _ .init ran
  obtain ⟨_, _, _, _, _, simulates⟩ := refines_bounded (by omega) (by unfold allocatorLimit; omega) reached
  obtain ⟨r, rb', performed, list⟩ := simulates .popBack count
  rw [held] at list
  obtain ⟨rfl, rest⟩ := Prod.mk.inj (Option.some.inj list)
  exact ⟨rb, rb', reached, first, held, performed, rest.symm⟩

end Celestite.RingBuffer
