import Mathlib.Data.List.Pairwise
import Mathlib.Data.Nat.Notation

/-!
# Writes into a row of cells

After a sequence of writes a cell holds what the last write that covered it put there. Writes
that cover no common cell can be taken in any order.
-/

namespace Celestite.Sequential

/-- `data` into the cells from `place` on. -/
structure Write (α : Type*) where
  place : ℕ
  data : List α
  deriving DecidableEq

namespace Write
variable {α : Type*} {w w' : Write α} {ws vs : List (Write α)} {xs : List α} {j : ℕ}

def Covers (w : Write α) (j : ℕ) : Prop := w.place ≤ j ∧ j < w.place + w.data.length

def Apart (w w' : Write α) : Prop := ∀ j, w.Covers j → ¬w'.Covers j

def Fits (n : ℕ) (w : Write α) : Prop := w.place + w.data.length ≤ n

def cell (w : Write α) (j : ℕ) : Option α := if w.place ≤ j then w.data[j - w.place]? else none

def onto (w : Write α) (xs : List α) : List α :=
  xs.take w.place ++ w.data ++ xs.drop (w.place + w.data.length)

/-- What the last of the writes that cover a cell puts there. -/
def last : List (Write α) → ℕ → Option α
  | [], _ => none
  | w :: ws, j => (last ws j).or (w.cell j)

def all (ws : List (Write α)) (xs : List α) : List α := ws.foldl (fun xs w => w.onto xs) xs

theorem Apart.symm (apart : w.Apart w') : w'.Apart w := fun j covers' covers => apart j covers covers'

theorem cell_eq_none (outside : ¬w.Covers j) : w.cell j = none := by
  unfold Covers at outside
  unfold cell
  split
  · rw [List.getElem?_eq_none_iff]
    omega
  · rfl

theorem Apart.cell (apart : w.Apart w') (j : ℕ) : w.cell j = none ∨ w'.cell j = none := by
  by_cases covers : w.Covers j
  · exact .inr (cell_eq_none (apart j covers))
  · exact .inl (cell_eq_none covers)

/-! ### One write -/

theorem length_onto (fits : w.Fits xs.length) : (w.onto xs).length = xs.length := by
  unfold Fits at fits
  simp only [onto, List.length_append, List.length_take, List.length_drop]
  omega

theorem onto_cell (fits : w.Fits xs.length) (j : ℕ) : (w.onto xs)[j]? = (w.cell j).or xs[j]? := by
  unfold Fits at fits
  have before : (xs.take w.place).length = w.place := by
    rw [List.length_take]
    omega
  rw [onto, List.append_assoc]
  rcases Nat.lt_or_ge j w.place with left | right
  · have outside : ¬w.Covers j := fun covers => absurd covers.1 (by omega)
    rw [cell_eq_none outside, Option.none_or, List.getElem?_append_left (by omega),
      List.getElem?_take_of_lt left]
  rw [List.getElem?_append_right (by omega), before, cell, if_pos right]
  rcases Nat.lt_or_ge j (w.place + w.data.length) with inside | past
  · have within : j - w.place < w.data.length := by omega
    have found : w.data[j - w.place]? = some w.data[j - w.place] := List.getElem?_eq_getElem within
    rw [List.getElem?_append_left (by omega), found, Option.some_or]
  · rw [List.getElem?_append_right (by omega), List.getElem?_eq_none (by omega : w.data.length ≤ _),
      Option.none_or, List.getElem?_drop]
    congr 1
    omega

theorem onto_outside (fits : w.Fits xs.length) (outside : ¬w.Covers j) : (w.onto xs)[j]? = xs[j]? := by
  rw [onto_cell fits, cell_eq_none outside, Option.none_or]

theorem onto_inside (fits : w.Fits xs.length) {i : ℕ} (inside : i < w.data.length) :
    (w.onto xs)[w.place + i]? = w.data[i]? := by
  have found : w.data[i]? = some w.data[i] := List.getElem?_eq_getElem inside
  rw [onto_cell fits, cell, if_pos (Nat.le_add_right _ _), Nat.add_sub_cancel_left, found,
    Option.some_or]

/-! ### Many writes -/

theorem last_append (j : ℕ) : last (ws ++ vs) j = (last vs j).or (last ws j) := by
  induction ws with
  | nil => exact (Option.or_none).symm
  | cons w ws ih => rw [List.cons_append, last, ih, last, Option.or_assoc]

theorem last_eq_none (outside : ∀ w ∈ ws, w.cell j = none) : last ws j = none := by
  induction ws with
  | nil => rfl
  | cons w ws ih =>
    rw [last, ih (fun v mem => outside v (.tail _ mem)), outside w (.head _), Option.or_none]

theorem all_append : all (ws ++ vs) xs = all vs (all ws xs) := List.foldl_append

theorem length_all (fits : ∀ w ∈ ws, w.Fits xs.length) : (all ws xs).length = xs.length := by
  induction ws generalizing xs with
  | nil => rfl
  | cons w ws ih =>
    have kept : (w.onto xs).length = xs.length := length_onto (fits w (.head _))
    have rest : ∀ v ∈ ws, v.Fits (w.onto xs).length := fun v mem => kept ▸ fits v (.tail _ mem)
    exact (ih rest).trans kept

theorem all_cell (fits : ∀ w ∈ ws, w.Fits xs.length) (j : ℕ) :
    (all ws xs)[j]? = (last ws j).or xs[j]? := by
  induction ws generalizing xs with
  | nil => rfl
  | cons w ws ih =>
    have kept : (w.onto xs).length = xs.length := length_onto (fits w (.head _))
    have rest : ∀ v ∈ ws, v.Fits (w.onto xs).length := fun v mem => kept ▸ fits v (.tail _ mem)
    have later : (all ws (w.onto xs))[j]? = (last ws j).or (w.onto xs)[j]? := ih rest
    rw [all, List.foldl_cons, ← all, later, onto_cell (fits w (.head _)), last, Option.or_assoc]

/-- Two sequences leave the same where they end with the same write in each cell. -/
theorem all_congr (fits : ∀ w ∈ ws, w.Fits xs.length) (fits' : ∀ w ∈ vs, w.Fits xs.length)
    (same : ∀ j, last ws j = last vs j) : all ws xs = all vs xs := by
  apply List.ext_getElem?
  intro j
  rw [all_cell fits, all_cell fits', same]

/-! ### Order -/

theorem last_perm (perm : ws.Perm vs) (apart : ws.Pairwise Apart) (j : ℕ) : last ws j = last vs j := by
  induction perm with
  | nil => rfl
  | cons w _ ih => rw [last, last, ih (List.pairwise_cons.mp apart).2]
  | swap v w ws =>
    have disjoint : w.Apart v := (List.pairwise_cons.mp apart).1 v (.head _)
    simp only [last, Option.or_assoc]
    rcases disjoint.cell j with none | none <;> rw [none] <;> simp
  | trans first _ ih ih' =>
    have apart' := (first.pairwise_iff fun {_ _} => Apart.symm).mp apart
    rw [ih apart, ih' apart']

/-- A write that covers no cell of a later one can be put off to the end. -/
theorem last_postponed {β : Type*} (f : β → Write α) (p : β → Bool) {bs : List β}
    (apart : bs.Pairwise fun a b => p a → (f a).Apart (f b)) (j : ℕ) :
    last (bs.map f) j = last ((bs.filter fun b => !p b).map f ++ (bs.filter p).map f) j := by
  induction bs with
  | nil => rfl
  | cons b bs ih =>
    obtain ⟨before, apart⟩ := List.pairwise_cons.mp apart
    rw [List.map_cons, last, ih apart, last_append, last_append]
    cases late : p b with
    | false => simp only [List.filter_cons, late, Bool.not_false, if_true, Bool.false_eq_true, if_false,
        List.map_cons, last, Option.or_assoc]
    | true =>
      simp only [List.filter_cons, late, Bool.not_true, Bool.false_eq_true, if_true, if_false,
        List.map_cons, last]
      by_cases covers : (f b).Covers j
      · -- no later write covers the cell
        have later : ∀ w ∈ (bs.filter fun b => !p b).map f, w.cell j = none := by
          intro w mem
          obtain ⟨a, kept, rfl⟩ := List.mem_map.mp mem
          exact cell_eq_none (before a (List.mem_filter.mp kept).1 late j covers)
        rw [last_eq_none later, Option.or_none, Option.or_none]
      · rw [cell_eq_none covers, Option.or_none, Option.or_none]

end Write
end Celestite.Sequential
