import Celestite.Concurrency.Wakeup
import Celestite.ThreadPool.Model

/-!
# The thread pool loses no wakeup

Workers are notified once for each task and clients that wait for a slot once for each task
taken; `stop` notifies both for good. `wait_all` is notified under the lock by whoever makes the
pool idle.
-/

namespace Celestite.ThreadPool
open Concurrency Monitor

variable {N : ℕ} {C : Type*} {maxJobs : ℕ}

abbrev Halted (x : ThreadPool N C) : Prop := x.stop = true

def Idle (x : ThreadPool N C) : Prop := x.nbWorking = 0 ∧ x.tasks = []

def room (maxJobs : ℕ) (x : ThreadPool N C) : ℕ := maxJobs - x.tasks.length

theorem waits_cond {k : Call N C} (waits : (sec maxJobs k).waits = some .cond) : ∃ w, k = .take w := by
  cases k with
  | take w => exact ⟨w, rfl⟩
  | enqueueTask task => cases h : decide (maxJobs = 0) <;> simp_all [sec, enqueueTask]
  | _ => simp [sec, stopPool, stopNow, waitAll, run, ran, decrement, destroy, join] at waits

theorem waits_condEnqueue {k : Call N C} (waits : (sec maxJobs k).waits = some .condEnqueue) :
    maxJobs ≠ 0 ∧ ∃ task, k = .enqueueTask task := by
  cases k with
  | enqueueTask task => exact ⟨by rintro rfl; simp [sec, enqueueTask] at waits, task, rfl⟩
  | _ => simp [sec, stopPool, stopNow, waitAll, take, run, ran, decrement, destroy, join] at waits

theorem waits_workingCond {k : Call N C} (waits : (sec maxJobs k).waits = some .workingCond) :
    k = .waitAll := by
  cases k with
  | waitAll => rfl
  | enqueueTask task => cases h : decide (maxJobs = 0) <;> simp_all [sec, enqueueTask]
  | _ => simp [sec, stopPool, stopNow, take, run, ran, decrement, destroy, join] at waits

variable [DecidableEq C] [Fintype C]

theorem monitor_effect {k : Call N C} {x : ThreadPool N C}
    (ready : ((monitor N C maxJobs).sec k).guard x = true) :
    Effect maxJobs x k (((monitor N C maxJobs).sec k).body x) :=
  sec_effect ready

theorem takes_cond {k : Call N C} (other : ∀ w, k ≠ .take w) :
    (monitor N C maxJobs).takes .cond k = 0 :=
  takes_zero fun waits => by obtain ⟨w, rfl⟩ := waits_cond waits; exact other w rfl

theorem takes_condEnqueue {k : Call N C} (other : ∀ task, k ≠ .enqueueTask task) :
    (monitor N C maxJobs).takes .condEnqueue k = 0 :=
  takes_zero fun waits => by obtain ⟨_, task, rfl⟩ := waits_condEnqueue waits; exact other task rfl

/-- Each task queued comes with a `notify_one` for the workers. -/
theorem cond_counted :
    Counted (monitor N C maxJobs) .cond (fun x => x.tasks.length) Halted where
  blocked k x waits blocked := by
    obtain ⟨w, rfl⟩ := waits_cond waits
    simpa [monitor, sec, take, and_comm] using blocked
  passes k x ready := by
    have effect := monitor_effect ready
    generalize ((monitor N C maxJobs).sec k).body x = e at effect ⊢
    cases effect with
    | stop | stopNow | destroy => exact Or.inl (by simp [stopNotifies])
    | rejected stopped | exited empty stopped => exact Or.inr (Or.inr ⟨Iff.rfl, absurd stopped⟩)
    | accepted running slot =>
      exact Or.inr (Or.inr ⟨Iff.rfl, fun _ => by simp [takes_cond]⟩)
    | @took w task rest head =>
      have takes : (monitor N C maxJobs).takes .cond (.take w) = 1 := takes_pos rfl
      exact Or.inr (Or.inr ⟨Iff.rfl, fun _ => by simp [takes, head]⟩)
    | _ => exact Or.inr (Or.inr ⟨Iff.rfl, fun _ => by simp [takes_cond]⟩)

/-- Each task taken from a bounded queue comes with a `notify_one` for those that wait for a slot. -/
theorem condEnqueue_counted (bounded : maxJobs ≠ 0) :
    Counted (monitor N C maxJobs) .condEnqueue (room maxJobs) Halted where
  blocked k x waits blocked := by
    obtain ⟨_, task, rfl⟩ := waits_condEnqueue waits
    obtain ⟨full, running⟩ : maxJobs ≤ x.tasks.length ∧ x.stop = false := by
      simpa [monitor, sec, enqueueTask, bounded] using blocked
    exact ⟨by simp [room]; omega, by simp [running]⟩
  passes k x ready := by
    have effect := monitor_effect ready
    generalize ((monitor N C maxJobs).sec k).body x = e at effect ⊢
    cases effect with
    | stop | stopNow | destroy => exact Or.inl (by simp [stopNotifies, bounded])
    | rejected stopped | exited empty stopped => exact Or.inr (Or.inr ⟨Iff.rfl, absurd stopped⟩)
    | @accepted task running slot =>
      have takes : (monitor N C maxJobs).takes .condEnqueue (.enqueueTask task) = 1 :=
        takes_pos (by simp [monitor, sec, enqueueTask, bounded])
      have := slot bounded
      refine Or.inr (Or.inr ⟨Iff.rfl, fun _ => ?_⟩)
      simp only [takes, room, List.length_append, List.length_singleton]
      omega
    | @took w task rest head =>
      have free : (monitor N C maxJobs).takes .condEnqueue (.take w) = 0 := takes_condEnqueue (by simp)
      refine Or.inr (Or.inr ⟨Iff.rfl, fun _ => ?_⟩)
      simp only [free, room, head, List.length_cons, bounded, if_false, List.count_singleton_self]
      omega
    | _ => exact Or.inr (Or.inr ⟨Iff.rfl, fun _ => by simp [takes_condEnqueue, room]⟩)

/-- Whoever makes the pool idle notifies `wait_all` before unlocking. -/
theorem workingCond_broadcast : Broadcast (monitor N C maxJobs) .workingCond Idle where
  blocked k x waits blocked := by
    obtain rfl := waits_workingCond waits
    simpa [monitor, sec, waitAll, Idle] using blocked
  passes k x ready now := by
    have effect := monitor_effect ready
    generalize ((monitor N C maxJobs).sec k).body x = e at effect now ⊢
    cases effect with
    | accepted running slot => simp [Idle] at now
    | took head => simp [Idle] at now
    | stopNow => exact Or.inr (by simp [show x.nbWorking = 0 from now.1])
    | decrement => exact Or.inr (by simpa using now.1)
    | _ => exact Or.inl now

end Celestite.ThreadPool
