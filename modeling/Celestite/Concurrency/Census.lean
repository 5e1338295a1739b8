import Mathlib.Algebra.Order.BigOperators.Group.Finset
import Mathlib.Data.Fintype.BigOperators
import Celestite.Concurrency.Move

/-!
# The census of a condition variable

How many threads are asleep on it, how many were woken from it and are still to check their
predicate, how many notifications are still owed to it, and what each move does to the counts.
-/

namespace Celestite.Concurrency.Monitor
variable {ι σ γ κ ρ : Type*}

variable [Fintype ι]

section Sum
variable {φ : Type*} {f : φ → ℕ} {phase phase' : ι → φ}

/-- The sum of a quantity over the threads' phases. -/
def census (f : φ → ℕ) (phase : ι → φ) : ℕ := ∑ t, f (phase t)

theorem census_update [DecidableEq ι] (f : φ → ℕ) (phase : ι → φ) (t : ι) (p : φ) :
    census f (Function.update phase t p) + f (phase t) = census f phase + f p := by
  unfold census
  have after := Finset.sum_update_of_mem (Finset.mem_univ t) (fun u => f (phase u)) (f p)
  have before := Finset.add_sum_erase Finset.univ (fun u => f (phase u)) (Finset.mem_univ t)
  have same : (fun u => f (Function.update phase t p u)) =
      Function.update (fun u => f (phase u)) t (f p) := by
    funext u
    by_cases h : u = t
    · subst h; simp
    · simp [h]
  rw [same, after, ← before, Finset.sdiff_singleton_eq_erase]
  omega

theorem census_pos {t : ι} (h : 0 < f (phase t)) : 0 < census f phase :=
  lt_of_lt_of_le h (Finset.single_le_sum (f := fun u => f (phase u)) (fun _ _ => Nat.zero_le _)
    (Finset.mem_univ t))

theorem census_zero : census f phase = 0 ↔ ∀ t, f (phase t) = 0 := by
  simp [census]

theorem census_congr (h : ∀ u, f (phase' u) = f (phase u)) : census f phase' = census f phase :=
  Finset.sum_congr rfl fun u _ => h u

theorem census_mono (h : ∀ u, f (phase u) ≤ f (phase' u)) : census f phase ≤ census f phase' :=
  Finset.sum_le_sum fun u _ => h u

end Sum

variable [DecidableEq γ]

def sleepers (M : Monitor ι σ γ κ ρ) (c : γ) (s : State ι σ γ κ ρ) : ℕ :=
  census (fun p => (M.sleepsOn c p).toNat) s.phase

def woken (M : Monitor ι σ γ κ ρ) (c : γ) (s : State ι σ γ κ ρ) : ℕ :=
  census (fun p => (M.wokenFrom c p).toNat) s.phase

/-- The threads a section takes off those that wait on `c`. -/
def takes (M : Monitor ι σ γ κ ρ) (c : γ) (k : κ) : ℕ := if (M.sec k).waits = some c then 1 else 0

def owed (n : Notify γ) (s : State ι σ γ κ ρ) : ℕ := census (fun p => p.debts.count n) s.phase

variable {M : Monitor ι σ γ κ ρ} {c : γ} {s e : State ι σ γ κ ρ}

/-- The state after `notify_all` on each of `cs`, before anything else changes. -/
abbrev roused (M : Monitor ι σ γ κ ρ) (cs : List γ) (s : State ι σ γ κ ρ) : State ι σ γ κ ρ :=
  { s with phase := M.wake cs s.phase }

theorem owed_roused (cs : List γ) (n : Notify γ) : owed n (M.roused cs s) = owed n s :=
  census_congr fun u => by rw [wake_debts]

theorem sleepers_roused (cs : List γ) :
    M.sleepers c (M.roused cs s) ≤ M.sleepers c s ∧ (c ∈ cs → M.sleepers c (M.roused cs s) = 0) := by
  refine ⟨census_mono fun u => ?_, fun member => census_zero.mpr fun u => ?_⟩
  · rw [wake_sleepsOn]
    cases M.sleepsOn c (s.phase u) <;> simp [Bool.toNat_le]
  · simp [wake_sleepsOn, member]

theorem woken_roused (cs : List γ) : M.woken c s ≤ M.woken c (M.roused cs s) := by
  apply census_mono
  intro u
  cases w : M.wokenFrom c (s.phase u)
  · simp
  · rw [wake_wokenFrom M _ _ _ _ w]

variable [DecidableEq ι]

theorem owed_update {t : ι} {p : Phase κ γ} (h : e.phase = Function.update s.phase t p)
    (n : Notify γ) : owed n e + (s.phase t).debts.count n = owed n s + p.debts.count n := by
  rw [owed, h]
  exact census_update (fun p : Phase κ γ => p.debts.count n) _ _ _

theorem sleepers_update {t : ι} {p : Phase κ γ} (h : e.phase = Function.update s.phase t p) :
    M.sleepers c e + (M.sleepsOn c (s.phase t)).toNat = M.sleepers c s + (M.sleepsOn c p).toNat := by
  rw [sleepers, h]
  exact census_update (fun p : Phase κ γ => (M.sleepsOn c p).toNat) _ _ _

theorem woken_update {t : ι} {p : Phase κ γ} (h : e.phase = Function.update s.phase t p) :
    M.woken c e + (M.wokenFrom c (s.phase t)).toNat = M.woken c s + (M.wokenFrom c p).toNat := by
  rw [woken, h]
  exact census_update (fun p : Phase κ γ => (M.wokenFrom c p).toNat) _ _ _

theorem quiet_census {t : ι} {p : Phase κ γ} (moved : e.phase = Function.update s.phase t p)
    (sleeps : M.sleepsOn c p = M.sleepsOn c (s.phase t)) (wokens : M.wokenFrom c p = M.wokenFrom c (s.phase t))
    (owes : p.debts = (s.phase t).debts) :
    (∀ n, owed n e = owed n s) ∧ M.sleepers c e = M.sleepers c s ∧ M.woken c e = M.woken c s := by
  have asleep := sleepers_update (M := M) (c := c) moved
  have awake := woken_update (M := M) (c := c) moved
  rw [sleeps] at asleep
  rw [wokens] at awake
  refine ⟨fun n => ?_, by omega, by omega⟩
  have debts := owed_update moved n
  rw [owes] at debts
  omega

omit [Fintype ι] [DecidableEq ι] in
theorem takes_pos {k : κ} (waits : (M.sec k).waits = some c) : M.takes c k = 1 := if_pos waits

omit [Fintype ι] [DecidableEq ι] in
theorem takes_zero {k : κ} (waits : (M.sec k).waits ≠ some c) : M.takes c k = 0 := if_neg waits

/-- Going through a section adds what it owes, and takes the thread off the woken at most when
the section waits on `c`. -/
theorem leave_census {t : ι} {k : κ} (here : (s.phase t).contending = some k) :
    (∀ n, owed n (M.leave s t k) = owed n s + ((M.sec k).body s.shared).owed.count n) ∧
    M.sleepers c (M.leave s t k) ≤ M.sleepers c s ∧
    (c ∈ ((M.sec k).body s.shared).broadcast → M.sleepers c (M.leave s t k) = 0) ∧
    M.woken c s ≤ M.woken c (M.leave s t k) + M.takes c k := by
  have moved : (M.leave s t k).phase =
      Function.update (M.roused ((M.sec k).body s.shared).broadcast s).phase t
        (.owing ((M.sec k).body s.shared).owed) := rfl
  have still : (M.roused ((M.sec k).body s.shared).broadcast s).phase t = s.phase t :=
    wake_contending here
  have alike := owed_roused (M := M) (s := s) ((M.sec k).body s.shared).broadcast
  have fewer := sleepers_roused (M := M) (c := c) (s := s) ((M.sec k).body s.shared).broadcast
  have more := woken_roused (M := M) (c := c) (s := s) ((M.sec k).body s.shared).broadcast
  generalize M.roused ((M.sec k).body s.shared).broadcast s = mid at moved still alike fewer more
  have sleeps := sleepers_update (M := M) (c := c) moved
  have wokens := woken_update (M := M) (c := c) moved
  simp only [still, sleepsOn_contending here, sleepsOn_owing, wokenFrom_owing, Bool.toNat_false,
    Nat.add_zero] at sleeps wokens
  refine ⟨fun n => ?_, by omega, fun cast => by have := fewer.2 cast; omega, ?_⟩
  · have owes := owed_update moved n
    simpa only [still, debts_contending here, debts_owing, List.count_nil, Nat.add_zero, alike] using owes
  · cases w : M.wokenFrom c (s.phase t)
    · rw [w, Bool.toNat_false] at wokens
      omega
    · rw [w, Bool.toNat_true] at wokens
      rw [takes_pos (wokenFrom_contending here w)]
      omega

theorem paid_census {t : ι} {n : Notify γ} {ns : List (Notify γ)}
    (owes : s.phase t = .leaving n ns) (moved : e.phase = Function.update s.phase t (.owing ns)) :
    (∀ m, owed m e + (if n = m then 1 else 0) = owed m s) ∧ M.sleepers c e = M.sleepers c s ∧
    M.woken c e = M.woken c s := by
  have sleeps := sleepers_update (M := M) (c := c) moved
  have wokens := woken_update (M := M) (c := c) moved
  rw [owes, sleepsOn_owing] at sleeps
  rw [owes, wokenFrom_owing] at wokens
  refine ⟨fun m => ?_, sleeps, wokens⟩
  have less := owed_update moved m
  rw [owes, debts_owing] at less
  simp only [Phase.debts, List.count_cons, beq_iff_eq] at less
  omega

theorem rouse_census {u : ι} {k : κ} (asleep : s.phase u = .asleep k)
    (moved : e.phase = Function.update s.phase u (.woken k)) :
    (∀ n, owed n e = owed n s) ∧
    M.sleepers c e + (if (M.sec k).waits = some c then 1 else 0) = M.sleepers c s ∧
    M.woken c e = M.woken c s + if (M.sec k).waits = some c then 1 else 0 := by
  have sleeps := sleepers_update (M := M) (c := c) moved
  have wokens := woken_update (M := M) (c := c) moved
  simp only [asleep, sleepsOn, wokenFrom, Bool.toNat_false, Nat.add_zero] at sleeps wokens
  refine ⟨fun n => ?_, ?_⟩
  · simpa [asleep, Phase.debts] using owed_update moved n
  · by_cases on : (M.sec k).waits = some c
    · simp only [on, beq_self_eq_true, Bool.toNat_true, if_true] at sleeps wokens ⊢
      exact ⟨sleeps, wokens⟩
    · rw [beq_false_of_ne on, Bool.toNat_false] at sleeps wokens
      simp only [if_neg on]
      exact ⟨sleeps, wokens⟩

end Celestite.Concurrency.Monitor
