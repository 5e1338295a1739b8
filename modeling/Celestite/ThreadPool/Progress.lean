import Celestite.ThreadPool.Wakeups
import Celestite.ThreadPool.Tasks

/-!
# The thread pool never hangs by itself

After `stop` or `stop_now`, when only spurious wakeups and further calls of clients could still
happen, every worker has left, the queue is empty and no client is in a call.
-/

namespace Celestite.ThreadPool
open Concurrency Monitor

variable {N : ℕ} {C : Type*} {maxJobs : ℕ} [DecidableEq C] [Fintype C] {s : PoolState N C}

theorem asleep_blocked (reached : (monitor N C maxJobs).lts.Reachable s) (quiet : s.Quiet) (t : Party N C) :
    ((monitor N C maxJobs).sleepsOn .cond (s.phase t) = true →
      s.shared.stop = false ∧ s.shared.tasks = []) ∧
    ((monitor N C maxJobs).sleepsOn .condEnqueue (s.phase t) = true →
      s.shared.stop = false ∧ maxJobs ≤ s.shared.tasks.length) ∧
    ((monitor N C maxJobs).sleepsOn .workingCond (s.phase t) = true →
      ¬ (s.shared.nbWorking = 0 ∧ s.shared.tasks = [])) := by
  have calm : (monitor N C maxJobs).lts.Reaches noThrow s := reaches_noThrow (fun k _ => sec_fails k) reached
  have spared : ∀ {P : PoolState N C → Party N C → Prop} s t,
      noThrow s (.throws t : Act (Party N C) (Call N C)) → P s t := fun s t throws => by
    simp [noThrow, Act.isThrow] at throws
  refine ⟨fun asleep => ?_, fun asleep => ?_, fun asleep idle => ?_⟩
  · have covered := cond_counted.covered calm fun s t throws _ => spared s t throws
    obtain ⟨none, running⟩ := covered_quiet covered quiet asleep
    exact ⟨by simpa using running, List.length_eq_zero_iff.mp none⟩
  · obtain ⟨k, _, waits⟩ := sleepsOn_iff.mp asleep
    obtain ⟨bounded, _⟩ := waits_condEnqueue waits
    have covered := (condEnqueue_counted bounded).covered calm fun s t throws _ => spared s t throws
    obtain ⟨none, running⟩ := covered_quiet covered quiet asleep
    exact ⟨by simpa using running, by simp only [room] at none; omega⟩
  · simp [workingCond_broadcast.awake calm idle t] at asleep

/-- Nothing is possible but spurious wakeups and further calls by clients or the owner. -/
def Spent (maxJobs : ℕ) (s : PoolState N C) : Prop :=
  ∀ a, a.isSpurious = false → (∀ c k, a ≠ .start (.inr c) k) → (monitor N C maxJobs).step s a = none

section Spent
variable (reached : (monitor N C maxJobs).lts.Reachable s) (spent : Spent maxJobs s)
include reached spent

theorem spent_cases (t : Party N C) :
    s.phase t = .outside ∨ (∃ k, s.phase t = .asleep k) ∨
    ∃ w, s.phase t = .entering (.join w) ∧ s.shared.workers w ≠ .exited := by
  rcases rest_cases (spent (.enter t) rfl (by simp)) fun wakes => spent (.notify t wakes) rfl (by simp) with
    out | asleep | ⟨k, here, blocked, waits⟩
  · exact Or.inl out
  · exact Or.inr (Or.inl asleep)
  · have notWoken : s.phase t ≠ .woken k := fun woken => by
      have := waiting_waits reached t k (by rw [woken]; rfl)
      simp [waits] at this
    have entering : s.phase t = .entering k := by
      cases e : s.phase t <;> simp_all [Phase.contending]
    cases k with
    | join w => exact Or.inr (Or.inr ⟨w, entering, fun left => by simp [monitor, sec, join, left] at blocked⟩)
    | enqueueTask task => by_cases bounded : maxJobs = 0 <;> simp_all [monitor, sec, enqueueTask]
    | take w => simp [monitor, sec, take] at waits
    | waitAll => simp [monitor, sec, waitAll] at waits
    | _ => simp [monitor, sec, stopPool, stopNow, run, ran, decrement, destroy] at blocked

theorem spent_quiet : s.Quiet := fun t => by
  rcases spent_cases reached spent t with out | ⟨k, asleep⟩ | ⟨w, entering, _⟩
  · simp [out, Phase.settled]
  · simp [asleep, Phase.settled]
  · simp [entering, Phase.settled]

theorem spent_asleep (stopped : s.shared.stop = true) {t : Party N C} {k : Call N C}
    (asleep : s.phase t = .asleep k) : k = .waitAll := by
  have waits := waiting_waits reached t k (by rw [asleep]; rfl)
  obtain ⟨c, waits⟩ := Option.isSome_iff_exists.mp waits
  have sleeps : (monitor N C maxJobs).sleepsOn c (s.phase t) = true := sleepsOn_iff.mpr ⟨k, asleep, waits⟩
  obtain ⟨onCond, onEnqueue, _⟩ := asleep_blocked reached (spent_quiet reached spent) t
  cases c with
  | cond => simp [stopped] at onCond; simp [onCond] at sleeps
  | condEnqueue => simp [stopped] at onEnqueue; simp [onEnqueue] at sleeps
  | workingCond => exact waits_workingCond waits

theorem spent_exited (stopped : s.shared.stop = true) (w : Fin N) : s.shared.workers w = .exited := by
  have entitled := (sound reached).2 (worker w)
  have out : s.phase (worker w) = .outside := by
    rcases spent_cases reached spent (worker w) with out | ⟨k, asleep⟩ | ⟨v, entering, _⟩
    · exact out
    · obtain rfl := spent_asleep reached spent stopped asleep
      simpa [Entitled] using entitled .waitAll (by rw [asleep]; rfl)
    · simpa [Entitled] using entitled (.join v) (by rw [entering]; rfl)
  have refused : ∀ k, mayStart s (worker w) k = false := fun k =>
    start_refused out (spent (.start (worker w) k) rfl (by simp))
  cases position : s.shared.workers w with
  | exited => rfl
  | waiting => simpa [mayStart, position] using refused (.take w)
  | holding task => simpa [mayStart, position] using refused (.run w task)
  | running task => simpa [mayStart, position] using refused (.ran w task)
  | finished => simpa [mayStart, position] using refused (.decrement w)

theorem spent_over (workers : 0 < N) (stopped : s.shared.stop = true) :
    (∀ w, s.shared.workers w = .exited) ∧ s.shared.tasks = [] ∧ ∀ t, s.phase t = .outside := by
  have exited := spent_exited reached spent stopped
  have manned := (sound reached).1.2
  have empty : s.shared.tasks = [] := (manned.exited ⟨0, workers⟩ (exited _)).2
  have idle : s.shared.nbWorking = 0 := by
    rw [manned.working]
    exact census_zero.mpr fun w => by rw [exited w]; rfl
  refine ⟨exited, empty, fun t => ?_⟩
  rcases spent_cases reached spent t with out | ⟨k, asleep⟩ | ⟨w, _, absent⟩
  · exact out
  · obtain rfl := spent_asleep reached spent stopped asleep
    have sleeps : (monitor N C maxJobs).sleepsOn .workingCond (s.phase t) = true :=
      sleepsOn_iff.mpr ⟨_, asleep, rfl⟩
    exact absurd ⟨idle, empty⟩ ((asleep_blocked reached (spent_quiet reached spent) t).2.2 sleeps)
  · exact absurd (exited w) absent

end Spent

/-- No wakeup is lost, and once the pool is stopped nothing can keep it from ending but a client
that makes further calls or a task that runs on. -/
theorem never_hangs (workers : 0 < N) (reached : (monitor N C maxJobs).lts.Reachable s) :
    (s.Quiet → ∀ t,
      ((monitor N C maxJobs).sleepsOn .cond (s.phase t) = true →
        s.shared.stop = false ∧ s.shared.tasks = []) ∧
      ((monitor N C maxJobs).sleepsOn .condEnqueue (s.phase t) = true →
        s.shared.stop = false ∧ maxJobs ≤ s.shared.tasks.length) ∧
      ((monitor N C maxJobs).sleepsOn .workingCond (s.phase t) = true →
        ¬ (s.shared.nbWorking = 0 ∧ s.shared.tasks = []))) ∧
    (Stopped s.history → Spent maxJobs s →
      (∀ w, s.shared.workers w = .exited) ∧ s.shared.tasks = [] ∧ ∀ t, s.phase t = .outside) := by
  refine ⟨fun quiet t => asleep_blocked reached quiet t, fun stopped spent => ?_⟩
  exact spent_over reached spent workers ((tasks_conserved reached).2.1.mpr stopped)

theorem spent_of_outside (out : ∀ t, s.phase t = .outside) (left : ∀ w, s.shared.workers w = .exited) :
    Spent maxJobs s := by
  intro a real other
  cases a with
  | start t k =>
    rcases t with w | c
    · have refused : mayStart s (.inl w) k = false := by cases k <;> simp [mayStart, left]
      simp [step, monitor, refused]
    · exact absurd rfl (other c k)
  | enter t | throws t => simp [step, out, Phase.contending]
  | notify t wakes => simp [step, out]
  | spurious t => simp [Act.isSpurious] at real

/-- Client 1 sleeps while there is no room; a pool that was stopped at once and destroyed is at its
end. -/
theorem never_hangs_runs :
    (∃ s, (monitor 2 (Fin 2) 1).lts.Reachable s ∧ s.phase (client 1) = .asleep (.enqueueTask (1, 0)) ∧
      s.shared.stop = false ∧ 1 ≤ s.shared.tasks.length) ∧
    ∃ s, (monitor 2 (Fin 2) 0).lts.Reachable s ∧ Stopped s.history ∧ Spent 0 s ∧ s.shared.tasks = [] := by
  constructor
  · have reached : (monitor 2 (Fin 2) 1).lts.Reachable _ :=
      Lts.run_reaches ((bothRun 0 1 0 1).take 5) .init rfl
    have asleep := ((never_hangs Nat.two_pos reached).1 (by decide) (client 1)).2.1 rfl
    exact ⟨_, reached, rfl, asleep⟩
  · obtain ⟨s, ran, out, left, stopped⟩ : ∃ s, (monitor 2 (Fin 2) 0).lts.run (fun _ _ => True)
        (monitor 2 (Fin 2) 0).lts.init (stoppedNow 0 1 0 1) = some s ∧ (∀ t, s.phase t = .outside) ∧
        (∀ w, s.shared.workers w = .exited) ∧ s.shared.stop = true :=
      ⟨_, rfl, by decide, by decide, rfl⟩
    have reached := Lts.run_reaches _ .init ran
    have stopped : Stopped s.history := (tasks_conserved reached).2.1.mp stopped
    have spent : Spent 0 s := spent_of_outside out left
    exact ⟨s, reached, stopped, spent, ((never_hangs Nat.two_pos reached).2 stopped spent).2.1⟩

end Celestite.ThreadPool
