import Mathlib.Data.Nat.ModEq
import Mathlib.Data.Set.Basic
import Mathlib.Order.Interval.Set.Defs

/-!
# Bump allocation

Blocks are cut off the front of a range of addresses, each from the first place that is aligned.
-/

namespace Celestite.Sequential

/-- What is left from `n` to the next multiple of `a`. -/
def padding (a n : ℕ) : ℕ := (a - n % a) % a

section
variable {a n m : ℕ}

theorem padding_lt (pos : 0 < a) : padding a n < a := Nat.mod_lt _ pos

theorem dvd_add_padding (pos : 0 < a) : a ∣ n + padding a n := by
  have short := Nat.mod_lt n pos
  have parts := Nat.mod_add_div n a
  unfold padding
  by_cases aligned : n % a = 0
  · rw [aligned, Nat.sub_zero, Nat.mod_self, Nat.add_zero]
    exact Nat.dvd_of_mod_eq_zero aligned
  · rw [Nat.mod_eq_of_lt (by omega : a - n % a < a)]
    refine ⟨n / a + 1, ?_⟩
    rw [Nat.mul_add, Nat.mul_one]
    omega

theorem add_padding_le (pos : 0 < a) (multiple : a ∣ m) (le : n ≤ m) : n + padding a n ≤ m := by
  obtain ⟨k, rfl⟩ := multiple
  obtain ⟨j, next⟩ := dvd_add_padding (n := n) pos
  have short := padding_lt (n := n) pos
  rw [next]
  apply Nat.mul_le_mul_left a
  by_contra more
  have step : a * (k + 1) ≤ a * j := Nat.mul_le_mul_left a (by omega)
  rw [Nat.mul_add, Nat.mul_one] at step
  omega

/-- Nothing else below `a` leads to a multiple. -/
theorem eq_padding (lt : m < a) (multiple : a ∣ n + m) : m = padding a n := by
  have pos : 0 < a := by omega
  have least := add_padding_le pos multiple (Nat.le_add_right n m)
  have apart := Nat.dvd_sub multiple (dvd_add_padding (n := n) pos)
  have same := Nat.eq_zero_of_dvd_of_lt apart (by omega)
  omega

end

structure Layout where
  size : ℕ
  alignment : ℕ

/-- The addresses from `cur` on, below `limit`, are free. -/
structure Bump where
  cur : ℕ
  limit : ℕ

/-- What became of a request, and where the free addresses began before and after it. -/
structure Served where
  layout : Layout
  result : Option ℕ
  before : ℕ
  after : ℕ

def Served.range (s : Served) : Set ℕ :=
  match s.result with
  | some p => Set.Ico p (p + s.layout.size)
  | none => ∅

namespace Bump
variable {b : Bump} {l : Layout} {ls : List Layout} {s s' : Served} {p p' : ℕ}

def place (b : Bump) (l : Layout) : ℕ := b.cur + padding l.alignment b.cur

def take (b : Bump) (l : Layout) : Option ℕ × Bump :=
  if b.place l + l.size ≤ b.limit then (some (b.place l), { b with cur := b.place l + l.size })
  else (none, b)

def serve (b : Bump) : List Layout → List Served
  | [] => []
  | l :: ls => ⟨l, (b.take l).1, b.cur, (b.take l).2.cur⟩ :: (b.take l).2.serve ls

theorem take_limit : (b.take l).2.limit = b.limit := by
  unfold take
  split <;> rfl

theorem take_cases : b.place l + l.size ≤ b.limit ∧ (b.take l).1 = some (b.place l) ∧
      (b.take l).2.cur = b.place l + l.size ∨
    b.limit < b.place l + l.size ∧ (b.take l).1 = none ∧ (b.take l).2 = b := by
  unfold take
  split
  · exact .inl ⟨by assumption, rfl, rfl⟩
  · exact .inr ⟨by omega, rfl, rfl⟩

theorem cur_le_place : b.cur ≤ b.place l := Nat.le_add_right _ _

theorem take_cur_le : b.cur ≤ (b.take l).2.cur := by
  have start := cur_le_place (b := b) (l := l)
  rcases take_cases (b := b) (l := l) with ⟨-, -, after⟩ | ⟨-, -, after⟩
  · omega
  · rw [after]

theorem take_within (within : b.cur ≤ b.limit) : (b.take l).2.cur ≤ (b.take l).2.limit := by
  rw [take_limit]
  rcases take_cases (b := b) (l := l) with ⟨fits, -, after⟩ | ⟨-, -, after⟩
  · omega
  · rw [after]
    exact within

theorem mem_serve (within : b.cur ≤ b.limit) (member : s ∈ b.serve ls) :
    ∃ b' : Bump, b.cur ≤ b'.cur ∧ b'.cur ≤ b'.limit ∧ b'.limit = b.limit ∧ s.layout ∈ ls ∧
      s = ⟨s.layout, (b'.take s.layout).1, b'.cur, (b'.take s.layout).2.cur⟩ := by
  induction ls generalizing b with
  | nil => contradiction
  | cons l ls ih =>
    rcases List.mem_cons.mp member with rfl | later
    · exact ⟨b, le_rfl, within, rfl, List.mem_cons_self, rfl⟩
    · obtain ⟨b', above, within', limit, layout, eq⟩ := ih (take_within within) later
      exact ⟨b', take_cur_le.trans above, within', limit.trans take_limit,
        List.mem_cons_of_mem _ layout, eq⟩

theorem mem_serve_some (within : b.cur ≤ b.limit) (pos : 0 < s.layout.alignment)
    (member : s ∈ b.serve ls) (granted : s.result = some p) :
    s.layout.alignment ∣ p ∧ b.cur ≤ p ∧ p + s.layout.size ≤ b.limit ∧
      p = s.before + padding s.layout.alignment s.before ∧ s.after = p + s.layout.size := by
  obtain ⟨b', above, -, limit, -, eq⟩ := mem_serve within member
  rw [eq] at granted
  rcases take_cases (b := b') (l := s.layout) with ⟨fits, result, after⟩ | ⟨-, result, -⟩
  · obtain rfl := Option.some.inj (result.symm.trans granted)
    have start := cur_le_place (b := b') (l := s.layout)
    refine ⟨dvd_add_padding pos, above.trans start, limit ▸ fits, ?_, ?_⟩
    · rw [eq]
      rfl
    · rw [eq]
      exact after
  · exact nomatch result.symm.trans granted

theorem mem_serve_none (within : b.cur ≤ b.limit) (member : s ∈ b.serve ls) :
    s.result = none ↔ b.limit < s.before + padding s.layout.alignment s.before + s.layout.size := by
  obtain ⟨b', -, -, limit, -, eq⟩ := mem_serve within member
  rw [eq]
  rcases take_cases (b := b') (l := s.layout) with ⟨fits, result, -⟩ | ⟨short, result, -⟩
  · rw [result, ← limit]
    exact ⟨nofun, fun short => absurd fits (not_le.mpr short)⟩
  · rw [result, ← limit]
    exact ⟨fun _ => short, fun _ => rfl⟩

theorem mem_serve_shrinks (within : b.cur ≤ b.limit) (member : s ∈ b.serve ls) :
    b.cur ≤ s.before ∧ s.before ≤ s.after ∧ s.after ≤ b.limit ∧ (s.result = none → s.after = s.before) := by
  obtain ⟨b', above, within', limit, -, eq⟩ := mem_serve within member
  have kept := take_limit (b := b') (l := s.layout)
  rw [eq]
  refine ⟨above, take_cur_le, (take_within within').trans (kept.trans limit).le, fun refused => ?_⟩
  rcases take_cases (b := b') (l := s.layout) with ⟨-, result, -⟩ | ⟨-, -, after⟩
  · exact nomatch result.symm.trans refused
  · simp only [after]

theorem serve_ordered (within : b.cur ≤ b.limit) (pos : ∀ l ∈ ls, 0 < l.alignment) :
    (b.serve ls).Pairwise fun s s' =>
      ∀ p p', s.result = some p → s'.result = some p' → p + s.layout.size ≤ p' := by
  induction ls generalizing b with
  | nil => exact .nil
  | cons l ls ih =>
    refine .cons (fun s' member p p' first second => ?_)
      (ih (take_within within) fun l' later => pos l' (List.mem_cons_of_mem _ later))
    obtain ⟨-, -, -, -, layout, -⟩ := mem_serve (take_within within) member
    have positive := pos _ (List.mem_cons_of_mem _ layout)
    have later := (mem_serve_some (take_within within) positive member second).2.1
    rcases take_cases (b := b) (l := l) with ⟨-, result, after⟩ | ⟨-, result, -⟩
    · obtain rfl := Option.some.inj (result.symm.trans first)
      exact after ▸ later
    · exact nomatch result.symm.trans first

theorem range_disjoint
    (ordered : ∀ p p', s.result = some p → s'.result = some p' → p + s.layout.size ≤ p') :
    s.range ∩ s'.range = ∅ := by
  apply Set.eq_empty_of_forall_notMem
  intro x both
  obtain ⟨low, high⟩ := both
  unfold Served.range at low high
  cases first : s.result with
  | none => simp [first] at low
  | some p =>
    cases second : s'.result with
    | none => simp [second] at high
    | some p' =>
      rw [first] at low
      rw [second] at high
      have apart := ordered p p' first second
      exact absurd (low.2.trans_le (apart.trans high.1)) (lt_irrefl x)

end Bump
end Celestite.Sequential
