import Celestite.RingBuffer.Refinement

/-!
# What `clear` destroys

Every iteration of the loop in `clear` moves its index one slot on and its bound one slot back, so
the loop ends half way.
-/

namespace Celestite.RingBuffer
open Cyclic

variable {T : Type} {rb : RingBuffer T} {xs : List T}

def cleared (rb : RingBuffer T) (k : ℕ) : RingBuffer T :=
  { rb with
    slots := fun j => if ∃ i < k, place rb.first rb.max i = j then none else rb.slots j
    count := rb.count - k }

theorem cleared_zero : rb.cleared 0 = rb := by simp [cleared]

theorem modMax_of_pos {n : ℕ} (pos : rb.max ≠ 0) : modMax n rb = .ok (n % rb.max) rb := by
  simp [modMax, Program.require_run pos]

/-- The loop stops where its condition fails, not because the recursion has come to its end. -/
theorem clearLoop_eq {i : ℕ} (started : rb.first ≤ i) (small : rb.first < 2 ^ 64) :
    clearLoop rb.count i rb = (if i < wrap (rb.first + rb.count) then do
      let slot ← modMax i
      destroy slot
      decrementCount
      clearLoop (rb.count - 1) (wrap (i + 1))
    else pure ()) rb := by
  cases held : rb.count with
  | zero =>
    have past : ¬i < wrap (rb.first + 0) := by
      rw [Nat.add_zero, wrap_of_lt small]
      omega
    rw [if_neg past]
    rfl
  | succ n =>
    simp only [clearLoop, Program.bind_run, Program.read_run, id_eq, held]
    rfl

namespace Represents

theorem destroy_cleared (h : Represents rb xs) {k : ℕ} (held : k < xs.length) :
    destroy (place rb.first rb.max k) (rb.cleared k) =
      .ok () { rb.cleared (k + 1) with count := (rb.cleared k).count } := by
  have inside : k < rb.max := held.trans_le h.length
  have there : (rb.cleared k).slots (place rb.first rb.max k) = some xs[k] := by
    have others : ¬∃ i < k, place rb.first rb.max i = place rb.first rb.max k := by
      rintro ⟨i, before, same⟩
      have := place_injective (before.trans inside) inside same
      omega
    simp only [cleared, if_neg others, h.slots k inside]
    exact List.getElem?_eq_getElem held
  have slots : Function.update (rb.cleared k).slots (place rb.first rb.max k) none =
      (rb.cleared (k + 1)).slots := by
    funext j
    by_cases same : j = place rb.first rb.max k
    · rw [same, Function.update_self]
      exact (if_pos ⟨k, Nat.lt_succ_self k, rfl⟩).symm
    · rw [Function.update_of_ne same]
      refine if_congr ⟨fun ⟨i, before, eq⟩ => ⟨i, by omega, eq⟩, fun ⟨i, before, eq⟩ => ⟨i, ?_, eq⟩⟩ rfl rfl
      have other : i ≠ k := fun last => same (by rw [← eq, last])
      omega
  have bound : place rb.first rb.max k < (rb.cleared k).max := place_lt h.pos
  rw [destroy_run bound there, slots]
  rfl

theorem clearLoop_run (h : Represents rb xs) {m k : ℕ} (left : m + k = xs.length)
    (half : 2 * k ≤ xs.length + 1) :
    clearLoop m (rb.first + k) (rb.cleared k) = .ok () (rb.cleared ((xs.length + 1) / 2)) := by
  -- after `k` iterations the index is `first + k` and the bound `first + count - k`, which meet half way
  induction m generalizing k with
  | zero =>
    have last : k = (xs.length + 1) / 2 := by omega
    rw [← last]
    rfl
  | succ m ih =>
    have length := h.length
    have granted := h.granted
    have first := h.first
    unfold allocatorLimit at granted
    have count : (rb.cleared k).count = m + 1 := by
      simp only [cleared, h.count]
      omega
    have bound : wrap ((rb.cleared k).first + (rb.cleared k).count) = rb.first + (m + 1) := by
      rw [count]
      exact wrap_of_lt (by simp only [cleared]; omega)
    have next : wrap (rb.first + k + 1) = rb.first + (k + 1) := wrap_of_lt (by omega)
    rw [clearLoop, Program.bind_ok (Program.read_run id _), id, bound]
    by_cases more : rb.first + k < rb.first + (m + 1)
    · have slot : modMax (rb.first + k) (rb.cleared k) = .ok (place rb.first rb.max k) (rb.cleared k) := by
        exact modMax_of_pos h.pos.ne'
      have lowered : decrementCount { rb.cleared (k + 1) with count := (rb.cleared k).count } =
          .ok () (rb.cleared (k + 1)) := by
        have one : pred (rb.cleared k).count = (rb.cleared (k + 1)).count := by
          rw [count, pred_of_pos (Nat.succ_pos m) (by omega)]
          simp only [cleared, h.count]
          omega
        rw [decrementCount, Program.update_run, one]
      rw [if_pos more, Program.bind_ok slot, Program.bind_ok (h.destroy_cleared (by omega)),
        Program.bind_ok lowered, next]
      exact ih (by omega) (by omega)
    · have last : k = (xs.length + 1) / 2 := by omega
      rw [if_neg more, ← last]
      rfl

/-- `clear` destroys the first half of the elements, rounded up. -/
theorem clear_run (h : Represents rb xs) : clear rb = .ok () (rb.cleared ((xs.length + 1) / 2)) := by
  have run := h.clearLoop_run (m := xs.length) (k := 0) (by omega) (by omega)
  rw [cleared_zero, Nat.add_zero] at run
  rw [clear, Program.bind_ok (Program.read_run id rb), id, h.count]
  exact run

theorem cleared_small (h : Represents rb xs) (small : xs.length ≤ 1) :
    Represents (rb.cleared ((xs.length + 1) / 2)) [] := by
  have all : (xs.length + 1) / 2 = xs.length := by omega
  rw [all]
  refine ⟨h.granted, h.first, by simp [cleared, h.count], Nat.zero_le _, fun i lt => ?_, fun j ge => ?_⟩
  · have lt : i < rb.max := lt
    simp only [cleared]
    split
    · simp
    · rename_i kept
      have beyond : xs.length ≤ i := by
        by_contra held
        exact kept ⟨i, by omega, rfl⟩
      rw [h.slots i lt, List.getElem?_eq_none beyond, List.getElem?_nil]
  · simp only [cleared]
    split
    · rfl
    · exact h.outside j ge

theorem slots_nil (h : Represents rb []) (j : ℕ) : rb.slots j = none := by
  have raw := h.constructed j
  rw [h.count] at raw
  simpa using raw

end Represents

/-- What `clear` is for. -/
def Clears (rb : RingBuffer T) : Prop :=
  ∃ rb', clear rb = .ok () rb' ∧ rb'.count = 0 ∧ ∀ j, rb'.slots j = none

theorem Represents.clears_iff (h : Represents rb xs) : Clears rb ↔ rb.count ≤ 1 := by
  unfold Clears
  rw [h.clear_run]
  constructor
  · rintro ⟨rb', run, count, -⟩
    obtain rfl : rb.cleared ((xs.length + 1) / 2) = rb' := by
      cases run
      rfl
    simp only [cleared, h.count] at count ⊢
    omega
  · intro small
    have empty := h.cleared_small (h.count ▸ small)
    exact ⟨_, rfl, empty.count, empty.slots_nil⟩

end Celestite.RingBuffer
