import Celestite.ThreadPool.Tasks

/-!
# `wait_all` is a barrier

`nb_working` counts the workers that took a task and have not yet done the decrement that goes
with it, so when `wait_all` finds it zero and the queue empty every task accepted so far has
finished or was discarded; and if the pool was stopped before, no task begins after that.
-/

namespace Celestite.ThreadPool
open Concurrency Monitor

variable {N : ℕ} {C : Type*} {maxJobs : ℕ} [DecidableEq C] [Fintype C] {s : PoolState N C}
variable {allow : PoolState N C → Act (Party N C) (Call N C) → Prop}

/-- `wait_all` has returned after the pool was stopped. -/
def Settled (h : History N C) : Prop :=
  ∃ before t k after, h = before ++ (t, k, .waited) :: after ∧ Stopped before

/-- The pool is stopped, nothing is queued and nobody is at work. -/
def Over (x : ThreadPool N C) : Prop :=
  x.stop = true ∧ x.tasks = [] ∧ ∀ w, (x.workers w).load = 0

theorem idle_ended (reached : (monitor N C maxJobs).lts.Reaches allow s)
    (idle : ∀ w, (s.shared.workers w).load = 0) (w : Fin N) :
    endedBy w s.history = takenBy w s.history := by
  have manned := (sound reached).1.2
  have begun := manned.begun w
  have ended := manned.ended w
  have rest := idle w
  cases position : s.shared.workers w <;> simp_all [Worker.load, Worker.held, Worker.current]

theorem working_zero (reached : (monitor N C maxJobs).lts.Reaches allow s) (none : s.shared.nbWorking = 0)
    (w : Fin N) : (s.shared.workers w).load = 0 :=
  census_zero.mp ((sound reached).1.2.working.symm.trans none) w

omit [Fintype C] in
theorem Over.keeps {x : ThreadPool N C} {h : History N C} {t : Party N C} {k : Call N C}
    {e : Exit (ThreadPool N C) Cond (Reply N C)} (finished : Over x) (turn : Entitled x h t k)
    (effect : Effect maxJobs x k e) : Over e.shared := by
  obtain ⟨stopped, empty, idle⟩ := finished
  cases effect with
  | accepted running slot => simp [running] at stopped
  | took head => simp [head] at empty
  | @exited w _ _ =>
    refine ⟨stopped, empty, fun v => ?_⟩
    by_cases same : v = w
    · simp [same, Worker.load]
    · simpa [same] using idle v
  | @run w task => simpa [turn.run.2, Worker.load] using idle w
  | @ran w task => simpa [turn.ran.2, Worker.load] using idle w
  | @decrement w => simpa [turn.decrement.2, Worker.load] using idle w
  | stop | destroy => exact ⟨rfl, empty, idle⟩
  | stopNow => exact ⟨rfl, rfl, idle⟩
  | _ => exact ⟨stopped, empty, idle⟩

theorem settled_over (reached : (monitor N C maxJobs).lts.Reaches allow s) :
    Settled s.history → Over s.shared := by
  refine reached.invariant (I := fun s => Settled s.history → Over s.shared) ?_
    fun {s a s'} reached ih _ taken => ?_
  · rintro ⟨before, t, k, after, split, _⟩
    simp [lts] at split
  cases step_move taken with
  | @leave t k here ready =>
    have turn := (sound reached).2 t k (contending_inside here)
    have effect : Effect maxJobs s.shared k _ := sec_effect ready
    rintro ⟨before, u, l, after, split, stopped⟩
    rcases snoc_split split with ⟨rfl, last⟩ | ⟨rest, earlier⟩
    · have finished : Over s.shared := by
        have reply : ((sec maxJobs k).body s.shared).reply = .waited := congrArg (·.2.2) last
        generalize (sec maxJobs k).body s.shared = e at effect reply
        cases effect with
        | waitAll idle empty =>
          exact ⟨(tasks_conserved reached).2.1.mpr stopped, empty, working_zero reached idle⟩
        | _ => contradiction
      exact finished.keeps turn effect
    · exact (ih ⟨before, u, l, rest, earlier, stopped⟩).keeps turn effect
  | throws here ready fails => simp [monitor, sec_fails] at fails
  | _ => exact ih

theorem working_count (reached : (monitor N C maxJobs).lts.Reaches allow s) :
    s.shared.nbWorking =
      (Finset.univ.filter fun w => returnedBy w s.history < (takenBy w s.history).length).card := by
  have manned := (sound reached).1.2
  rw [manned.working, census, Finset.card_filter]
  apply Finset.sum_congr rfl
  intro w _
  rw [manned.returned w]
  cases s.shared.workers w <;> simp [Worker.load]

/-- `nb_working` counts the workers between taking a task and the decrement that goes with it; when
`wait_all` returns every task accepted before has finished or was discarded; and after it has
returned on a stopped pool no task begins. -/
theorem wait_all_barrier (reached : (monitor N C maxJobs).lts.Reachable s) :
    s.shared.nbWorking =
      (Finset.univ.filter fun w => returnedBy w s.history < (takenBy w s.history).length).card ∧
    s.shared.nbWorking ≤ N ∧
    (∀ w, (s.phase (worker w)).contending = some (.decrement w) → 0 < s.shared.nbWorking) ∧
    (∀ before t k after, s.history = before ++ (t, k, .waited) :: after →
      ∀ task ∈ accepted before, task ∈ discarded before ∨ ∃ w, task ∈ endedBy w before) ∧
    (∀ before t k w task after, s.history = before ++ (t, k, .began w task) :: after →
      ¬ Settled before) := by
  have count := working_count reached
  refine ⟨count, ?_, fun w here => ?_, ?_, ?_⟩
  · rw [count]
    exact (Finset.card_le_univ _).trans_eq (Fintype.card_fin N)
  · have finished := ((sound reached).2 _ _ (contending_inside here)).decrement.2
    rw [(sound reached).1.2.working]
    exact census_pos (t := w) (by simp [finished, Worker.load])
  -- the state in which `wait_all` returned is one of the run, and the pool was idle in it
  · rintro before t k after split task member
    obtain ⟨e, x', earlier, rfl, _, left⟩ := past reached split
    obtain ⟨exit, effect, _, reply⟩ := passes_effect left
    obtain ⟨idle, empty⟩ : e.shared.nbWorking = 0 ∧ e.shared.tasks = [] := by
      cases effect with
      | waitAll idle empty => exact ⟨idle, empty⟩
      | _ => contradiction
    rw [(tasks_conserved earlier).1, empty, List.append_nil, (removed_perm _).mem_iff,
      List.mem_append] at member
    rcases member with member | dropped
    · obtain ⟨⟨w, task⟩, taker, rfl⟩ := List.mem_map.mp member
      refine Or.inr ⟨w, ?_⟩
      rw [idle_ended earlier (working_zero earlier idle)]
      exact mem_takenBy.mpr taker
    · exact Or.inl dropped
  · rintro before t k w task after split settled
    obtain ⟨e, x', earlier, rfl, here, left⟩ := past reached split
    obtain ⟨exit, effect, _, reply⟩ := passes_effect left
    have idle := (settled_over earlier settled).2.2
    have turn := (sound earlier).2 t k (contending_inside here)
    cases effect with
    | @run v other => simpa [turn.run.2, Worker.load] using idle v
    | _ => contradiction

theorem wait_all_barrier_bothRun : ∃ s, (monitor 2 (Fin 2) 1).lts.Reachable s ∧
    ∃ before t k after, s.history = before ++ (t, k, .waited) :: after ∧
      accepted before = [(0, 0), (1, 0)] ∧
      ∀ task ∈ accepted before, task ∈ discarded before ∨ ∃ w, task ∈ endedBy w before := by
  obtain ⟨s, ran, before, t, k, after, split, both⟩ : ∃ s, (monitor 2 (Fin 2) 1).lts.run
      (fun _ _ => True) (monitor 2 (Fin 2) 1).lts.init (bothRun 0 1 0 1) = some s ∧
      ∃ before t k after, s.history = before ++ (t, k, .waited) :: after ∧
        accepted before = [(0, 0), (1, 0)] :=
    ⟨_, rfl, [(client 0, .enqueueTask (0, 0), .accepted (0, 0)), (worker 0, .take 0, .took 0 (0, 0)),
      (client 1, .enqueueTask (1, 0), .accepted (1, 0)), (worker 1, .take 1, .took 1 (1, 0)),
      (worker 0, .run 0 (0, 0), .began 0 (0, 0)), (worker 1, .run 1 (1, 0), .began 1 (1, 0)),
      (worker 0, .ran 0 (0, 0), .ended 0 (0, 0)), (worker 1, .ran 1 (1, 0), .ended 1 (1, 0)),
      (worker 0, .decrement 0, .decremented 0), (worker 1, .decrement 1, .decremented 1)],
      client 0, .waitAll, _, rfl, rfl⟩
  have reached := Lts.run_reaches _ .init ran
  obtain ⟨_, _, _, waited, _⟩ := wait_all_barrier reached
  exact ⟨s, reached, before, t, k, after, split, both, waited before t k after split⟩

end Celestite.ThreadPool
