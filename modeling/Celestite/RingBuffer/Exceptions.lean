import Celestite.RingBuffer.Arguments

/-!
# Constructors that throw

A full buffer has no slot to spare, so `push_overwrite` and `emplace` destroy the first element before
the new one is constructed in its place. Where that throws the first element is gone; any other
call that throws has changed nothing.
-/

namespace Celestite.RingBuffer
open Concurrency Cyclic

variable {T : Type} {rb rb' mid : RingBuffer T} {xs ys : List T} {op : Insertion} {arg : Arg T} {e : Error}

def Evicts (rb : RingBuffer T) (op : Insertion) : Prop := rb.count = rb.max ∧ op ≠ .push

def Intact (rb : RingBuffer T) (xs : List T) (rb' : RingBuffer T) : Prop :=
  Represents rb' xs ∧ rb'.first = rb.first ∧ rb'.count = rb.count ∧ rb'.slots = rb.slots

/-- The first element is destroyed and no other slot has changed. -/
def Evicted (rb : RingBuffer T) (xs : List T) (rb' : RingBuffer T) : Prop :=
  Represents rb' xs.tail ∧ rb'.count + 1 = rb.count ∧ rb'.slots = Function.update rb.slots rb.first none

namespace Represents

theorem call_returns (h : Represents rb xs) (v : T) : call (op.call v) rb ≠ .threw e rb' := by
  rw [← insert_plain]
  obtain ⟨r, _, _, rb'', run, -⟩ := h.insert_plain_run op v
  rw [run]
  simp

/-- What throws is the constructor, and the buffer is then as it was when the constructor ran. -/
theorem ends_threw (h : Represents rb xs) (threw : ends op arg rb mid = .threw e rb') : rb' = mid := by
  unfold ends at threw
  cases read : arg mid.slots with
  | value v =>
    rw [read] at threw
    exact absurd threw (h.call_returns v)
  | threw =>
    rw [read] at threw
    injection threw with _ same
    exact same.symm
  | dangling =>
    rw [read] at threw
    contradiction

theorem insert_threw_room (h : Represents rb xs) (room : ¬Evicts rb op)
    (threw : insert op arg rb = .threw e rb') : rb' = rb := by
  unfold Evicts at room
  rw [h.full_iff] at room
  by_cases push : op = .push
  · subst push
    rw [h.insert_push] at threw
    split_ifs at threw
    exact h.ends_threw threw
  · have spare : xs.length ≠ rb.max := fun full => room ⟨full, push⟩
    rw [insert_overwrite push (h.popIfFull_room spare) h (lt_of_le_of_ne h.length spare)] at threw
    exact h.ends_threw threw

theorem insert_threw_full (h : Represents rb xs) (evicts : Evicts rb op)
    (threw : insert op arg rb = .threw e rb') : Evicted rb xs rb' := by
  obtain ⟨full, other⟩ := evicts
  rw [h.full_iff] at full
  have pos := h.pos
  obtain ⟨made, rest⟩ := h.popIfFull_full full
  rw [insert_overwrite other made rest (by simp only [List.length_tail]; omega)] at threw
  obtain rfl := h.ends_threw threw
  refine ⟨rest, ?_, rfl⟩
  rw [rest.count, h.count, List.length_tail]
  omega

end Represents

/-- A call that throws has changed nothing exactly if it has not made room in a full buffer; where it
has, the first element is gone and nothing else. -/
theorem intact_or_evicted (h : Represents rb xs) (threw : insert op arg rb = .threw e rb') :
    (Intact rb xs rb' ↔ ¬Evicts rb op) ∧ (Evicts rb op → Evicted rb xs rb') := by
  refine ⟨⟨?_, ?_⟩, fun evicts => h.insert_threw_full evicts threw⟩
  · rintro ⟨-, -, count, -⟩ evicts
    obtain ⟨-, fewer, -⟩ := h.insert_threw_full evicts threw
    omega
  · intro room
    obtain rfl := h.insert_threw_room room threw
    exact ⟨h, rfl, rfl, rfl⟩

/-- The only element of a buffer for two, and a second one whose constructor throws. -/
theorem intact_or_evicted_room : ∃ rb rb' : RingBuffer ℕ, (lts ℕ 2).Reaches Allowed rb ∧
    insert .emplace (fun _ => .threw) rb = .threw .element rb' ∧ Intact rb [1] rb' := by
  obtain ⟨rb, ran, held, count, max, rb', threw⟩ : ∃ rb, (lts ℕ 2).run Allowed (lts ℕ 2).init [.push 1] = some rb ∧
    rb.contents = [1] ∧ rb.count = 1 ∧ rb.max = 2 ∧
      ∃ rb', insert .emplace (fun _ => .threw) rb = .threw .element rb' := ⟨_, rfl, rfl, rfl, rfl, _, rfl⟩
  have reached := Lts.run_reaches _ .init ran
  have represents := (represents (by omega) (by unfold allocatorLimit; omega) reached).1
  rw [held] at represents
  refine ⟨rb, rb', reached, threw, (intact_or_evicted represents threw).1.mpr ?_⟩
  rintro ⟨full, -⟩
  omega

/-- A full buffer loses its first element to a constructor that throws. -/
theorem evicted_by_throwing : ¬∀ rb : RingBuffer ℕ, (lts ℕ 2).Reaches Allowed rb →
    ∀ (op : Insertion) (arg : Arg ℕ) (e : Error) (rb' : RingBuffer ℕ), insert op arg rb = .threw e rb' →
      Intact rb rb.contents rb' := by
  intro claimed
  obtain ⟨rb, ran, count, rb', threw, count'⟩ : ∃ rb,
    (lts ℕ 2).run Allowed (lts ℕ 2).init [.push 1, .push 2] = some rb ∧ rb.count = 2 ∧
    ∃ rb', insert .emplace (fun _ => .threw) rb = .threw .element rb' ∧ rb'.count = 1 :=
    ⟨_, rfl, rfl, _, rfl, rfl⟩
  obtain ⟨-, -, same, -⟩ := claimed rb (Lts.run_reaches _ .init ran) _ _ _ rb' threw
  omega

end Celestite.RingBuffer
