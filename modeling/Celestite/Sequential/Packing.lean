import Mathlib.Algebra.BigOperators.Group.List.Basic
import Celestite.Sequential.Bump

/-!
# Bump allocation without gaps

Requests by falling alignment, of whole multiples of it, lie side by side: only the first is padded.
-/

namespace Celestite.Sequential

/-- Where blocks of these sizes begin, one behind the other. -/
def stacked (p : ℕ) : List Layout → List ℕ
  | [] => []
  | l :: ls => p :: stacked (p + l.size) ls

def totalSize (ls : List Layout) : ℕ := (ls.map Layout.size).sum

structure Packs (ls : List Layout) : Prop where
  whole : ∀ l ∈ ls, l.alignment ∣ l.size
  falling : ls.Pairwise fun l l' => l'.alignment ∣ l.alignment

/-- What a request takes at most. -/
def Layout.atMost (l : Layout) : ℕ := l.size + l.alignment - 1

@[simp] theorem totalSize_cons (l : Layout) (ls : List Layout) : totalSize (l :: ls) = l.size + totalSize ls := by
  simp [totalSize]

theorem padding_of_dvd {a n : ℕ} (multiple : a ∣ n) : padding a n = 0 := by
  rw [padding, Nat.mod_eq_zero_of_dvd multiple, Nat.sub_zero, Nat.mod_self]

namespace Packs
variable {l : Layout} {ls : List Layout}

theorem tail (packs : Packs (l :: ls)) : Packs ls :=
  ⟨fun l' later => packs.whole l' (List.mem_cons_of_mem l later), packs.falling.of_cons⟩

/-- Behind the first block the others are aligned. -/
theorem aligned {p : ℕ} (packs : Packs (l :: ls)) (multiple : l.alignment ∣ p) :
    ∀ l' ∈ ls, l'.alignment ∣ p + l.size := by
  intro l' later
  have divides := List.rel_of_pairwise_cons packs.falling later
  exact divides.trans (Nat.dvd_add multiple (packs.whole l List.mem_cons_self))

end Packs

namespace Bump
variable {b : Bump} {l : Layout} {ls : List Layout} {n : ℕ}

theorem place_of_dvd (multiple : l.alignment ∣ b.cur) : b.place l = b.cur := by
  rw [place, padding_of_dvd multiple, Nat.add_zero]

theorem take_fits (fits : b.place l + l.size ≤ b.limit) :
    b.take l = (some (b.place l), { b with cur := b.place l + l.size }) := if_pos fits

theorem take_refuses (short : b.limit < b.place l + l.size) : b.take l = (none, b) := if_neg (by omega)

/-- In whatever order, requests that never take more than there is are served. -/
theorem serve_room (positive : ∀ l ∈ ls, 0 < l.alignment) (room : b.cur + (ls.map Layout.atMost).sum ≤ b.limit) :
    ∀ s ∈ b.serve ls, s.result ≠ none := by
  induction ls generalizing b with
  | nil => exact fun _ => nofun
  | cons l ls ih =>
    have short := padding_lt (n := b.cur) (positive l List.mem_cons_self)
    have most : l.atMost = l.size + l.alignment - 1 := rfl
    rw [List.map_cons, List.sum_cons] at room
    have fits : b.place l + l.size ≤ b.limit := by
      unfold place
      omega
    rw [serve, take_fits fits]
    intro s member
    rcases List.mem_cons.mp member with rfl | later
    · nofun
    · refine ih (fun l' later' => positive l' (List.mem_cons_of_mem l later')) ?_ s later
      simp only [place]
      omega

theorem serve_packed (packs : Packs ls) (aligned : ∀ l ∈ ls, l.alignment ∣ b.cur)
    (room : b.cur + totalSize ls ≤ b.limit) :
    (b.serve ls).map Served.result = (stacked b.cur ls).map some := by
  induction ls generalizing b with
  | nil => rfl
  | cons l ls ih =>
    have here := aligned l List.mem_cons_self
    have place := place_of_dvd here
    rw [totalSize_cons] at room
    have others := @ih { b with cur := b.cur + l.size } packs.tail (packs.aligned here) (by simp only; omega)
    rw [serve, take_fits (by omega), place, List.map_cons, others]
    rfl

/-- The blocks take what they are large. -/
theorem serve_takes (served : ∀ s ∈ b.serve ls, s.result ≠ none) (within : b.cur ≤ b.limit) :
    b.cur + totalSize ls ≤ b.limit := by
  induction ls generalizing b with
  | nil => exact within
  | cons l ls ih =>
    rw [serve] at served
    have start := cur_le_place (b := b) (l := l)
    rcases take_cases (b := b) (l := l) with ⟨fits, -, after⟩ | ⟨-, refused, -⟩
    · have others := ih (fun s later => served s (List.mem_cons_of_mem _ later)) (take_within within)
      rw [take_limit, after] at others
      rw [totalSize_cons]
      omega
    · exact absurd refused (served _ List.mem_cons_self)

theorem dvd_place (positive : 0 < l.alignment) : l.alignment ∣ b.place l := dvd_add_padding positive

theorem serve_falling (packs : Packs (l :: ls)) (positive : 0 < l.alignment)
    (room : b.place l + totalSize (l :: ls) ≤ b.limit) :
    (b.serve (l :: ls)).map Served.result = (stacked (b.place l) (l :: ls)).map some := by
  rw [totalSize_cons] at room
  have others := @serve_packed { b with cur := b.place l + l.size } ls packs.tail
    (packs.aligned (dvd_place positive)) (by simp only; omega)
  rw [serve, take_fits (by omega), List.map_cons, others]
  rfl

/-- Nothing but the padding of the first block is lost. -/
theorem serve_falling_iff (packs : Packs (l :: ls)) (positive : 0 < l.alignment) (within : b.cur ≤ b.limit) :
    (∀ s ∈ b.serve (l :: ls), s.result ≠ none) ↔ b.place l + totalSize (l :: ls) ≤ b.limit := by
  constructor
  · intro served
    rw [serve] at served
    rcases take_cases (b := b) (l := l) with ⟨-, -, after⟩ | ⟨-, refused, -⟩
    · have others := serve_takes (fun s later => served s (List.mem_cons_of_mem _ later)) (take_within within)
      rw [take_limit, after] at others
      rw [totalSize_cons]
      omega
    · exact absurd refused (served _ List.mem_cons_self)
  · intro room s member refused
    have result := List.mem_map_of_mem (f := Served.result) member
    rw [serve_falling packs positive room, refused] at result
    simp at result

/-- Equal requests fill an array, up to the last element that fits. -/
theorem serve_replicate (positive : 0 < l.alignment) (whole : l.alignment ∣ l.size) :
    (b.serve (List.replicate n l)).map Served.result = (List.range n).map fun i =>
      if b.place l + (i + 1) * l.size ≤ b.limit then some (b.place l + i * l.size) else none := by
  induction n generalizing b with
  | zero => rfl
  | succ n ih =>
    rw [List.replicate_succ, serve, List.map_cons, ih, List.range_succ_eq_map, List.map_cons, List.map_map]
    by_cases fits : b.place l + l.size ≤ b.limit
    · have next : Bump.place ⟨b.place l + l.size, b.limit⟩ l = b.place l + l.size :=
        place_of_dvd (Nat.dvd_add (dvd_place positive) whole)
      have head : b.place l + (0 + 1) * l.size ≤ b.limit := by omega
      rw [take_fits fits, if_pos head, zero_mul, Nat.add_zero]
      refine congrArg (_ :: ·) (List.map_congr_left fun i _ => ?_)
      have step (k : ℕ) : b.place l + l.size + k * l.size = b.place l + (k + 1) * l.size := by
        rw [Nat.succ_mul]
        omega
      simp only [next, Function.comp, step]
    · have head : ¬b.place l + (0 + 1) * l.size ≤ b.limit := by omega
      rw [take_refuses (by omega), if_neg head]
      refine congrArg (_ :: ·) (List.map_congr_left fun i _ => ?_)
      have more : l.size ≤ (i + 1) * l.size := Nat.le_mul_of_pos_left l.size (Nat.succ_pos i)
      have further : (i + 1) * l.size ≤ (i + 1 + 1) * l.size := Nat.mul_le_mul_right l.size (Nat.le_succ _)
      simp only [Function.comp, Nat.succ_eq_add_one]
      rw [if_neg (by omega), if_neg (by omega)]

end Bump
end Celestite.Sequential
