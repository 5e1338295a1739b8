import Celestite.ThreadPool.Barrier
import Celestite.ThreadPool.Futures

/-!
# Waiting for a future

A future that `submit` returned tells what became of its task, and once it is set it stays so. As long
as there is a worker, nobody waits for one without something that can still happen to the pool.
-/

namespace Celestite.ThreadPool
open Concurrency Monitor

variable {N : ℕ} {C ρ : Type*} {maxJobs : ℕ} [DecidableEq C] [Fintype C] {s : PoolState N C}
  {allow : PoolState N C → Act (Party N C) (Call N C) → Prop} {outcome : Task C → ρ} {F : Task C → Future ρ}

theorem Told.pending_iff (told : Told outcome s.history F)
    (reached : (monitor N C maxJobs).lts.Reaches allow s) {task : Task C} (member : task ∈ accepted s.history) :
    F task = .pending ↔ Underway s.shared task := by
  constructor
  · intro pending
    rcases accepted_cases reached member with underway | ⟨w, ended⟩ | dropped
    · exact underway
    · simp [told.ready w task ended] at pending
    · simp [told.dropped task dropped] at pending
  · intro underway
    obtain ⟨unended, kept⟩ := underway_apart reached underway
    exact told.others task unended (fun thrown => (removed_nodup reached).2 task thrown member) kept

theorem Told.ready_iff (told : Told outcome s.history F)
    (reached : (monitor N C maxJobs).lts.Reaches allow s) {task : Task C} (member : task ∈ accepted s.history) :
    F task = .ready (outcome task) ↔ ∃ w, task ∈ endedBy w s.history := by
  refine ⟨fun ready => ?_, fun ⟨w, ended⟩ => told.ready w task ended⟩
  rcases accepted_cases reached member with underway | ended | dropped
  · simp [(told.pending_iff reached member).mpr underway] at ready
  · exact ended
  · simp [told.dropped task dropped] at ready

theorem Told.broken_iff (told : Told outcome s.history F)
    (reached : (monitor N C maxJobs).lts.Reaches allow s) {task : Task C} (member : task ∈ accepted s.history) :
    F task = .broken ↔ task ∈ discarded s.history := by
  refine ⟨fun broken => ?_, told.dropped task⟩
  rcases accepted_cases reached member with underway | ⟨w, ended⟩ | dropped
  · simp [(told.pending_iff reached member).mpr underway] at broken
  · simp [told.ready w task ended] at broken
  · exact dropped

/-- The future of an accepted task is pending while the task is queued or at a worker, has the outcome
of its callable once that has run, and is broken if the task was discarded. No task is called twice,
and a future that is set does not change. -/
theorem future_tells (outcome : Task C → ρ) (reached : (monitor N C maxJobs).lts.Reachable s) :
    ∃ F, futures outcome s.history = some F ∧
      (∀ task ∈ accepted s.history,
        (F task = .pending ↔ Underway s.shared task) ∧
        (F task = .ready (outcome task) ↔ ∃ w, task ∈ endedBy w s.history) ∧
        (F task = .broken ↔ task ∈ discarded s.history)) ∧
      ∀ before after, s.history = before ++ after →
        ∃ G, futures outcome before = some G ∧ ∀ task, G task ≠ .pending → F task = G task := by
  obtain ⟨F, settled, told⟩ := told_of_reaches outcome reached
  refine ⟨F, settled, fun task member => ⟨told.pending_iff reached member, told.ready_iff reached member,
    told.broken_iff reached member⟩, fun before after split => ?_⟩
  rw [split, futures_append] at settled
  obtain ⟨G, earlier, later⟩ := Option.bind_eq_some_iff.mp settled
  exact ⟨G, earlier, fun task set => Future.run_kept later set⟩

theorem future_tells_stoppedNow : ∃ s F, (monitor 2 (Fin 2) 0).lts.Reachable s ∧
    futures (fun _ => 7) s.history = some F ∧ F (0, 0) = .ready 7 ∧ F (0, 1) = .broken := by
  have reached : (monitor 2 (Fin 2) 0).lts.Reachable _ := Lts.run_reaches (stoppedNow 0 1 0 1) .init rfl
  obtain ⟨F, settled, tells, -⟩ := future_tells (fun _ => 7) reached
  have first := (tells (0, 0) (by decide)).2.1.mpr ⟨0, by decide⟩
  exact ⟨_, F, reached, settled, first, (tells (0, 1) (by decide)).2.2.mpr (by decide)⟩

/-! ### Nobody waits in vain -/

theorem idle_settled (reached : (monitor N C maxJobs).lts.Reaches allow s) (told : Told outcome s.history F)
    (idle : ∀ w, (s.shared.workers w).load = 0) (empty : s.shared.tasks = []) {task : Task C}
    (member : task ∈ accepted s.history) : F task ≠ .pending := by
  rw [Ne, told.pending_iff reached member]
  rintro (queued | ⟨w, position⟩)
  · simp [empty] at queued
  · have none := idle w
    rcases position with holding | running
    · simp [holding, Worker.load] at none
    · simp [running, Worker.load] at none

/-- When only clients could go on, the workers are waiting for tasks or have left. -/
theorem spent_idle (workers : 0 < N) (reached : (monitor N C maxJobs).lts.Reachable s)
    (spent : Spent maxJobs s) : (∀ w, (s.shared.workers w).load = 0) ∧ s.shared.tasks = [] := by
  have manned := (sound reached).1.2
  have rests : ∀ w, (s.shared.workers w).load = 0 ∧ s.shared.tasks = [] := by
    intro w
    have entitled := (sound reached).2 (worker w)
    rcases spent_cases reached spent (worker w) with out | ⟨k, asleep⟩ | ⟨v, entering, -⟩
    · have refused : ∀ k, mayStart s (worker w) k = false := fun k =>
        start_refused out (spent (.start (worker w) k) rfl (by simp))
      cases position : s.shared.workers w with
      | exited => exact ⟨rfl, (manned.exited w position).2⟩
      | waiting => simpa [mayStart, position] using refused (.take w)
      | holding task => simpa [mayStart, position] using refused (.run w task)
      | running task => simpa [mayStart, position] using refused (.ran w task)
      | finished => simpa [mayStart, position] using refused (.decrement w)
    · have mine := entitled k (by rw [asleep]; rfl)
      have waits := waiting_waits reached (worker w) k (by rw [asleep]; rfl)
      cases k with
      | take v =>
        have sleeps : (monitor N C maxJobs).sleepsOn .cond (s.phase (worker w)) = true :=
          sleepsOn_iff.mpr ⟨_, asleep, rfl⟩
        obtain ⟨rfl, waiting⟩ := mine
        rw [waiting]
        exact ⟨rfl, ((asleep_blocked reached (spent_quiet reached spent) (worker w)).1 sleeps).2⟩
      | _ => simp [Entitled, monitor, sec, run, ran, decrement] at mine waits
    · simpa [Entitled] using entitled (.join v) (by rw [entering]; rfl)
  exact ⟨fun w => (rests w).1, (rests ⟨0, workers⟩).2⟩

/-- A client that waits for the future of an accepted task is served: when nothing but spurious wakeups
and calls of other clients is possible the future is set, as it is when `wait_all` has returned, and
after the destructor at the latest. Without `stop_now` it has the outcome of the callable. -/
theorem futures_served (workers : 0 < N) (outcome : Task C → ρ)
    (reached : (monitor N C maxJobs).lts.Reachable s) :
    ∃ F, futures outcome s.history = some F ∧
      (Spent maxJobs s → ∀ task ∈ accepted s.history, F task ≠ .pending) ∧
      (∀ before t k after, s.history = before ++ (t, k, .waited) :: after →
        ∀ task ∈ accepted before, F task ≠ .pending) ∧
      (s.shared.joined = some N → ∀ task ∈ accepted s.history, F task ≠ .pending) ∧
      ((∀ e ∈ s.history, e.2.1 ≠ .stopNow) →
        ∀ task ∈ accepted s.history, F task ≠ .pending → F task = .ready (outcome task)) := by
  obtain ⟨F, settled, told⟩ := told_of_reaches outcome reached
  refine ⟨F, settled, ?_, ?_, ?_, ?_⟩
  · intro spent task member
    obtain ⟨idle, empty⟩ := spent_idle workers reached spent
    exact idle_settled reached told idle empty member
  · intro before t k after split task member
    obtain ⟨e, x', earlier, rfl, -, left⟩ := past reached split
    obtain ⟨exit, effect, -, reply⟩ := passes_effect left
    obtain ⟨G, settled', told'⟩ := told_of_reaches outcome earlier
    have set : G task ≠ .pending := by
      cases effect with
      | waitAll idle empty => exact idle_settled earlier told' (working_zero earlier idle) empty member
      | _ => contradiction
    rw [split, futures_append, settled', Option.bind_some] at settled
    rwa [Future.run_kept settled set]
  · intro joined task member
    obtain ⟨exited, empty⟩ := joined_empty reached workers joined
    exact idle_settled reached told (fun w => by rw [exited w]; rfl) empty member
  · intro never task member set
    rcases accepted_cases reached member with underway | ⟨w, ended⟩ | dropped
    · exact absurd ((told.pending_iff reached member).mpr underway) set
    · exact told.ready w task ended
    · obtain ⟨e, called, stops⟩ := discarded_stopNow reached dropped
      exact absurd stops (never e called)

/-- Both tasks have run when the pool is destroyed. -/
theorem futures_served_bothRun : ∃ s F, (monitor 2 (Fin 2) 1).lts.Reachable s ∧
    futures (fun _ => 7) s.history = some F ∧ F (0, 0) = .ready 7 ∧ F (1, 0) = .ready 7 := by
  obtain ⟨s, ran, joined, both, never⟩ : ∃ s, (monitor 2 (Fin 2) 1).lts.run (fun _ _ => True)
      (monitor 2 (Fin 2) 1).lts.init (bothRun 0 1 0 1) = some s ∧ s.shared.joined = some 2 ∧
      accepted s.history = [(0, 0), (1, 0)] ∧ ∀ e ∈ s.history, e.2.1 ≠ .stopNow :=
    ⟨_, rfl, rfl, rfl, by decide⟩
  have reached := Lts.run_reaches _ .init ran
  obtain ⟨F, settled, -, -, set, runs⟩ := futures_served Nat.two_pos (fun _ => 7) reached
  have ready : ∀ task ∈ accepted s.history, F task = .ready 7 := fun task member =>
    runs never task member (set joined task member)
  rw [both] at ready
  exact ⟨s, F, reached, settled, ready (0, 0) (by decide), ready (1, 0) (by decide)⟩

/-! ### One worker -/

theorem pair_asymm {α : Type*} {l : List α} {a b : α} (once : l.Nodup) (order : [a, b].Sublist l) :
    ¬ [b, a].Sublist l := by
  induction l with
  | nil => simp at order
  | cons c l ih =>
    obtain ⟨new, once⟩ := List.nodup_cons.mp once
    intro reverse
    cases order with
    | cons _ order =>
      cases reverse with
      | cons _ reverse => exact ih once order reverse
      | cons_cons _ reverse => exact new (order.subset (by simp))
    | cons_cons _ second =>
      cases reverse with
      | cons _ reverse => exact new (reverse.subset (by simp))
      | cons_cons _ reverse => exact new (reverse.subset (by simp))

/-- With one worker the callable of a task runs only when the futures of all earlier tasks are set. -/
theorem one_worker_in_order (outcome : Task C → ρ) {s : PoolState 1 C}
    (reached : (monitor 1 C maxJobs).lts.Reachable s) :
    ∃ F, futures outcome s.history = some F ∧
      ∀ a b, [a, b].Sublist (accepted s.history) → b ∈ begunBy 0 s.history → F a ≠ .pending := by
  obtain ⟨F, settled, told⟩ := told_of_reaches outcome reached
  refine ⟨F, settled, fun a b order begun => ?_⟩
  have once := (List.nodup_append.mp (sound reached).1.1.once).1
  have reversed := pair_asymm once order
  rw [Ne, told.pending_iff reached (order.subset (by simp))]
  have manned := (sound reached).1.2
  have removes := (takenBy_sublist 0 s.history).trans (taken_sublist s.history)
  have values := (tasks_conserved reached).1
  rw [values] at reversed
  rintro (queued | ⟨w, position⟩)
  · have gone := removes.mem (begun_takenBy reached begun)
    exact reversed ((List.singleton_sublist.mpr gone).append (List.singleton_sublist.mpr queued))
  · -- what the worker is at comes after all that it has begun before
    refine reversed (List.Sublist.trans ?_ (removes.trans (List.sublist_append_left _ _)))
    obtain rfl := Subsingleton.elim w 0
    rw [manned.begun 0]
    rcases position with holding | running
    · rw [holding]
      exact (List.singleton_sublist.mpr begun).append (.refl _)
    · rw [manned.ended 0, running, Worker.current] at begun ⊢
      have apart : b ≠ a := by
        rintro rfl
        simpa using order.nodup once
      have ended := (List.mem_append.mp begun).resolve_right (by simpa using apart)
      exact ((List.singleton_sublist.mpr ended).append (.refl _)).trans (List.sublist_append_left _ _)

/-- A client enqueues two tasks, and the only worker runs the first and begins the second. -/
def twoTasks (w : Fin 1) (c : Fin 1) : List (Act (Party 1 (Fin 1)) (Call 1 (Fin 1))) :=
  [.start (client c) (.enqueueTask (c, 0)), .enter (client c), .notify (client c) none,
    .start (client c) (.enqueueTask (c, 1)), .enter (client c), .notify (client c) none,
    .start (worker w) (.take w), .enter (worker w), .start (worker w) (.run w (c, 0)),
    .enter (worker w), .start (worker w) (.ran w (c, 0)), .enter (worker w),
    .start (worker w) (.decrement w), .enter (worker w), .start (worker w) (.take w),
    .enter (worker w), .start (worker w) (.run w (c, 1)), .enter (worker w)]

theorem one_worker_in_order_twoTasks : ∃ s F, (monitor 1 (Fin 1) 0).lts.Reachable s ∧
    futures (fun _ => 7) s.history = some F ∧ F (0, 0) ≠ .pending := by
  obtain ⟨s, ran, order, begun⟩ : ∃ s, (monitor 1 (Fin 1) 0).lts.run (fun _ _ => True)
      (monitor 1 (Fin 1) 0).lts.init (twoTasks 0 0) = some s ∧ [(0, 0), (0, 1)].Sublist (accepted s.history) ∧
      (0, 1) ∈ begunBy 0 s.history :=
    ⟨_, rfl, by decide, by decide⟩
  have reached := Lts.run_reaches _ .init ran
  obtain ⟨F, settled, set⟩ := one_worker_in_order (fun _ => 7) reached
  exact ⟨s, F, reached, settled, set (0, 0) (0, 1) order begun⟩

end Celestite.ThreadPool
