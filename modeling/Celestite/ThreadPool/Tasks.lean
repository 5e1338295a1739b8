import Mathlib.Data.List.Nodup
import Celestite.ThreadPool.Queue

/-!
# Every accepted task is run once or discarded

A task that left the queue was taken by one worker or discarded, and a worker runs what it takes;
so when the destructor has joined the workers every accepted task was run once by one of them or
discarded by `stop_now`.
-/

namespace Celestite.ThreadPool
open Concurrency Monitor

variable {N : ℕ} {C : Type*} {maxJobs : ℕ} {h : History N C}

def Reply.taker : Reply N C → List (Fin N × Task C)
  | took w task => [(w, task)]
  | _ => []

def Reply.drops : Reply N C → List (Task C)
  | discarded tasks => tasks
  | _ => []

def takers (h : History N C) : List (Fin N × Task C) := h.flatMap (·.2.2.taker)

def taken (h : History N C) : List (Task C) := (takers h).map Prod.snd

def discarded (h : History N C) : List (Task C) := h.flatMap (·.2.2.drops)

theorem removed_perm (h : History N C) : (removed h).Perm (taken h ++ discarded h) := by
  induction h with
  | nil => exact .nil
  | cons e h ih =>
    obtain ⟨t, k, r⟩ := e
    cases r with
    | took w task => exact ih.cons task
    | discarded tasks => exact (ih.append_left tasks).trans (List.perm_append_comm_assoc _ _ _)
    | _ => exact ih

theorem taken_sublist (h : History N C) : (taken h).Sublist (removed h) := by
  induction h with
  | nil => exact .slnil
  | cons e h ih =>
    obtain ⟨t, k, r⟩ := e
    cases r with
    | took w task => exact ih.cons_cons task
    | discarded tasks => exact ih.trans (List.sublist_append_right tasks (removed h))
    | _ => exact ih

theorem takenBy_takers (w : Fin N) (h : History N C) :
    takenBy w h = ((takers h).filter (·.1 = w)).map Prod.snd := by
  induction h with
  | nil => rfl
  | cons e h ih =>
    obtain ⟨t, k, r⟩ := e
    cases r with
    | took v task =>
      have split : takers ((t, k, .took v task) :: h) = (v, task) :: takers h := rfl
      have left : takenBy w ((t, k, .took v task) :: h) =
          (if v = w then [task] else []) ++ takenBy w h := rfl
      rw [split, left, ih]
      by_cases same : v = w <;> simp [same]
    | _ => exact ih

theorem mem_takenBy {w : Fin N} {task : Task C} : task ∈ takenBy w h ↔ (w, task) ∈ takers h := by
  rw [takenBy_takers]
  simp

theorem takenBy_sublist (w : Fin N) (h : History N C) : (takenBy w h).Sublist (taken h) := by
  rw [takenBy_takers]
  exact (List.filter_sublist).map Prod.snd

variable [DecidableEq C]

theorem taken_once (once : (taken h).Nodup) {task : Task C} (member : task ∈ taken h) :
    ∃ w, (takenBy w h).count task = 1 ∧ ∀ v, v ≠ w → task ∉ takenBy v h := by
  obtain ⟨⟨w, task⟩, taker, rfl⟩ := List.mem_map.mp member
  refine ⟨w, ?_, fun v other also => other ?_⟩
  · exact List.count_eq_one_of_mem ((takenBy_sublist w h).nodup once) (mem_takenBy.mpr taker)
  · exact congrArg Prod.fst (List.inj_on_of_nodup_map once (mem_takenBy.mp also) taker rfl)

variable [Fintype C] {s : PoolState N C}

section
variable {allow : PoolState N C → Act (Party N C) (Call N C) → Prop}

theorem removed_nodup (reached : (monitor N C maxJobs).lts.Reaches allow s) :
    (taken s.history ++ discarded s.history).Nodup ∧
    (∀ task ∈ rejected s.history, task ∉ accepted s.history) := by
  have fresh := (sound reached).1.1.once
  rw [List.nodup_append] at fresh
  obtain ⟨once, _, apart⟩ := fresh
  have values := (tasks_conserved reached).1
  rw [values] at once
  refine ⟨(removed_perm s.history).nodup_iff.mp (List.nodup_append.mp once).1, ?_⟩
  intro task thrown member
  exact apart task member task thrown rfl

theorem exited_ran (reached : (monitor N C maxJobs).lts.Reaches allow s) {w : Fin N}
    (left : s.shared.workers w = .exited) :
    begunBy w s.history = takenBy w s.history ∧ endedBy w s.history = takenBy w s.history := by
  have manned := (sound reached).1.2
  have begun := manned.begun w
  have ended := manned.ended w
  simp only [left, Worker.held, Worker.current, List.append_nil] at begun ended
  exact ⟨begun.symm, (begun.trans ended).symm⟩

theorem begun_taken (reached : (monitor N C maxJobs).lts.Reaches allow s) {w : Fin N} {task : Task C}
    (begun : task ∈ begunBy w s.history) : task ∈ taken s.history := by
  apply (takenBy_sublist w s.history).mem
  rw [(sound reached).1.2.begun w]
  exact List.mem_append_left _ begun

theorem stopped_rejects (reached : (monitor N C maxJobs).lts.Reaches allow s)
    {before after : History N C} {t : Party N C} {k : Call N C} {task : Task C}
    (split : s.history = before ++ (t, k, .accepted task) :: after) : ¬ Stopped before := by
  intro stopped
  obtain ⟨e, x', earlier, rfl, _, left⟩ := past reached split
  obtain ⟨exit, effect, _, reply⟩ := passes_effect left
  have halted := (tasks_conserved earlier).2.1.mpr stopped
  cases effect <;> simp_all

theorem discarded_stopNow (reached : (monitor N C maxJobs).lts.Reaches allow s) {task : Task C}
    (dropped : task ∈ discarded s.history) : ∃ e ∈ s.history, e.2.1 = .stopNow := by
  obtain ⟨⟨t, k, r⟩, member, drops⟩ := List.mem_flatMap.mp dropped
  obtain ⟨before, after, split⟩ := List.append_of_mem member
  obtain ⟨e, x', earlier, _, _, left⟩ := past reached split
  obtain ⟨exit, effect, _, rfl⟩ := passes_effect left
  cases effect with
  | stopNow => exact ⟨_, member, rfl⟩
  | _ => simp [Reply.drops] at drops

theorem joined_empty (reached : (monitor N C maxJobs).lts.Reaches allow s) (workers : 0 < N)
    (joined : s.shared.joined = some N) :
    (∀ w, s.shared.workers w = .exited) ∧ s.shared.tasks = [] := by
  have manned := (sound reached).1.2
  have exited : ∀ w, s.shared.workers w = .exited := fun w => manned.joined N joined w w.2
  exact ⟨exited, (manned.exited ⟨0, workers⟩ (exited _)).2⟩

end

/-- The task is run once, to the end, by one worker. -/
def RanOnce (h : History N C) (task : Task C) : Prop :=
  ∃ w, (begunBy w h).count task = 1 ∧ (endedBy w h).count task = 1 ∧ ∀ v, v ≠ w → task ∉ begunBy v h

/-- In every state the queue is bounded, tasks are taken in the order in which they were accepted,
none that was rejected is run and none is accepted once the pool is stopped; and when the workers
are joined every accepted task was run once or discarded, and run once if there was no `stop_now`. -/
theorem executed_once (workers : 0 < N) (reached : (monitor N C maxJobs).lts.Reachable s) :
    (0 < maxJobs → s.shared.tasks.length ≤ maxJobs) ∧
    (taken s.history).Sublist (accepted s.history) ∧
    (∀ task ∈ rejected s.history, ∀ w, task ∉ begunBy w s.history) ∧
    (∀ before t k task after, s.history = before ++ (t, k, .accepted task) :: after → ¬ Stopped before) ∧
    (s.shared.joined = some N → ∀ task ∈ accepted s.history,
      (RanOnce s.history task ∧ task ∉ discarded s.history) ∨
      (task ∈ discarded s.history ∧ ∀ w, task ∉ begunBy w s.history)) ∧
    (s.shared.joined = some N → (∀ e ∈ s.history, e.2.1 ≠ .stopNow) →
      ∀ task ∈ accepted s.history, RanOnce s.history task) := by
  obtain ⟨values, _, bound⟩ := tasks_conserved reached
  obtain ⟨once, apart⟩ := removed_nodup reached
  have settled : s.shared.joined = some N → ∀ task ∈ accepted s.history,
      (RanOnce s.history task ∧ task ∉ discarded s.history) ∨
      (task ∈ discarded s.history ∧ ∀ w, task ∉ begunBy w s.history) := by
    intro joined task member
    -- all that was accepted has left the queue, once, and was either taken or discarded
    obtain ⟨exited, empty⟩ := joined_empty reached workers joined
    have ran := fun w => exited_ran reached (exited w)
    rw [values, empty, List.append_nil, (removed_perm _).mem_iff, List.mem_append] at member
    obtain ⟨takenOnce, _, disjoint⟩ := List.nodup_append.mp once
    rcases member with member | dropped
    · obtain ⟨w, count, others⟩ := taken_once takenOnce member
      refine Or.inl ⟨⟨w, ?_, ?_, fun v other => ?_⟩, fun dropped => disjoint task member task dropped rfl⟩
      · rw [(ran w).1, count]
      · rw [(ran w).2, count]
      · rw [(ran v).1]
        exact others v other
    · exact Or.inr ⟨dropped, fun w begun => disjoint task (begun_taken reached begun) task dropped rfl⟩
  refine ⟨fun bounded => bound (by omega), ?_, ?_, ?_, settled, fun joined never task member => ?_⟩
  · rw [values]
    exact (taken_sublist _).trans (List.sublist_append_left _ _)
  · intro task thrown w begun
    apply apart task thrown
    rw [values, List.mem_append, (removed_perm _).mem_iff, List.mem_append]
    exact Or.inl (Or.inl (begun_taken reached begun))
  · exact fun _ _ _ _ _ split => stopped_rejects reached split
  · rcases settled joined task member with ⟨ran, _⟩ | ⟨dropped, _⟩
    · exact ran
    · obtain ⟨e, member, called⟩ := discarded_stopNow reached dropped
      exact absurd called (never e member)

/-- In a pool of two workers with room for one task, client `b` waits for the slot, the workers run a
task each, client `a` waits for both, and the pool is destroyed. -/
def bothRun (v w : Fin 2) (a b : Fin 2) : List (Act (Party 2 (Fin 2)) (Call 2 (Fin 2))) :=
  [.start (client a) (.enqueueTask (a, 0)), .enter (client a), .notify (client a) none,
    .start (client b) (.enqueueTask (b, 0)), .enter (client b),
    .start (worker v) (.take v), .enter (worker v), .notify (worker v) (some (client b)),
    .start (worker w) (.take w), .enter (worker w),
    .enter (client b), .notify (client b) (some (worker w)),
    .start (client a) .waitAll, .enter (client a), .enter (worker w), .notify (worker w) none,
    .start (worker v) (.run v (a, 0)), .enter (worker v),
    .start (worker w) (.run w (b, 0)), .enter (worker w),
    .start (worker v) (.ran v (a, 0)), .enter (worker v),
    .start (worker w) (.ran w (b, 0)), .enter (worker w),
    .start (worker v) (.decrement v), .enter (worker v),
    .start (worker w) (.decrement w), .enter (worker w), .enter (client a),
    .start owner .destroy, .enter owner, .notify owner none, .notify owner none,
    .start (worker v) (.take v), .enter (worker v), .start (worker w) (.take w), .enter (worker w),
    .start owner (.join v), .enter owner, .start owner (.join w), .enter owner]

/-- Client `a` enqueues two tasks, and client `b` stops the pool at once when worker `v` has taken the
first of them. -/
def stoppedNow (v w : Fin 2) (a b : Fin 2) : List (Act (Party 2 (Fin 2)) (Call 2 (Fin 2))) :=
  [.start (client a) (.enqueueTask (a, 0)), .enter (client a), .notify (client a) none,
    .start (client a) (.enqueueTask (a, 1)), .enter (client a), .notify (client a) none,
    .start (worker v) (.take v), .enter (worker v),
    .start (client b) .stopNow, .enter (client b), .notify (client b) none,
    .start (worker v) (.run v (a, 0)), .enter (worker v),
    .start (worker v) (.ran v (a, 0)), .enter (worker v),
    .start (worker v) (.decrement v), .enter (worker v),
    .start (worker v) (.take v), .enter (worker v), .start (worker w) (.take w), .enter (worker w),
    .start owner .destroy, .enter owner, .notify owner none,
    .start owner (.join v), .enter owner, .start owner (.join w), .enter owner]

theorem executed_once_runs :
    (∃ s, (monitor 2 (Fin 2) 1).lts.Reachable s ∧ s.shared.joined = some 2 ∧
      accepted s.history = [(0, 0), (1, 0)] ∧ RanOnce s.history (0, 0) ∧ RanOnce s.history (1, 0)) ∧
    ∃ s, (monitor 2 (Fin 2) 0).lts.Reachable s ∧ s.shared.joined = some 2 ∧
      accepted s.history = [(0, 0), (0, 1)] ∧ RanOnce s.history (0, 0) ∧
      ∀ w, (0, 1) ∉ begunBy w s.history := by
  constructor
  · have reached : (monitor 2 (Fin 2) 1).lts.Reachable _ := Lts.run_reaches (bothRun 0 1 0 1) .init rfl
    obtain ⟨-, -, -, -, -, ran⟩ := executed_once Nat.two_pos reached
    have ran := ran rfl (by decide)
    exact ⟨_, reached, rfl, rfl, ran (0, 0) (by decide), ran (1, 0) (by decide)⟩
  · have reached : (monitor 2 (Fin 2) 0).lts.Reachable _ := Lts.run_reaches (stoppedNow 0 1 0 1) .init rfl
    obtain ⟨-, -, -, -, settled, -⟩ := executed_once Nat.two_pos reached
    have first := (settled rfl (0, 0) (by decide)).resolve_right fun dropped => absurd dropped.1 (by decide)
    have second := (settled rfl (0, 1) (by decide)).resolve_left fun ran => ran.2 (by decide)
    exact ⟨_, reached, rfl, rfl, first.1, second.2⟩

end Celestite.ThreadPool
