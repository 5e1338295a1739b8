import Celestite.Channel.Fifo
import Celestite.ThreadPool.Sound

/-!
# The task queue is a closable FIFO queue

Enqueuing a task is an `emplace`, taking one a `pop`, `stop` a `close` and `stop_now` a `close`
and a `clear`; so the laws of `Fifo` hold of the tasks.
-/

namespace Celestite.ThreadPool
open Concurrency Monitor

variable {N : ℕ} {C : Type*} {maxJobs : ℕ} {x : ThreadPool N C} {h : History N C}

def queueCalls : Party N C × Call N C × Reply N C →
    List (Party N C × Channel.Call (Task C) × Channel.Reply (Task C))
  | (t, _, .accepted task) => [(t, .emplace task, .emplace true)]
  | (t, _, .rejected task) => [(t, .emplace task, .emplace false)]
  | (t, _, .took _ task) => [(t, .pop, .pop (some task))]
  | (t, _, .exited _) => [(t, .pop, .pop none)]
  | (t, _, .stopped) => [(t, .close, .close)]
  | (t, _, .discarded tasks) => [(t, .close, .close), (t, .clear, .cleared tasks)]
  | _ => []

def queued (h : History N C) : List (Party N C × Channel.Call (Task C) × Channel.Reply (Task C)) :=
  h.flatMap queueCalls

theorem queued_snoc (h : History N C) (e : Party N C × Call N C × Reply N C) :
    queued (h ++ [e]) = queued h ++ queueCalls e := by simp [queued]

/-- The tasks a section takes off the queue, to be run or discarded. -/
def Reply.removes : Reply N C → List (Task C)
  | took _ task => [task]
  | discarded tasks => tasks
  | _ => []

def removed (h : History N C) : List (Task C) := h.flatMap (·.2.2.removes)

def Stopped (h : History N C) : Prop :=
  ∃ e ∈ h, e.2.2 = .stopped ∨ ∃ tasks, e.2.2 = .discarded tasks

theorem accepted_queued (h : History N C) : Fifo.accepted (queued h) = accepted h := by
  simp only [Fifo.accepted, queued, accepted, List.filterMap_flatMap]
  congr 1
  funext e
  obtain ⟨t, k, r⟩ := e
  cases r <;> rfl

theorem removed_queued (h : History N C) : Fifo.removed (queued h) = removed h := by
  simp only [Fifo.removed, queued, removed, List.flatMap_assoc]
  congr 1
  funext e
  obtain ⟨t, k, r⟩ := e
  cases r <;> simp [queueCalls, Reply.removes]

theorem shut_queued (h : History N C) : Fifo.Shut (queued h) ↔ Stopped h := by
  simp only [Fifo.Shut, queued, Stopped, List.mem_flatMap]
  constructor
  · rintro ⟨t, ⟨u, k, r⟩, member, call⟩
    refine ⟨_, member, ?_⟩
    cases r <;> simp_all [queueCalls]
  · rintro ⟨⟨u, k, r⟩, member, stop⟩
    refine ⟨u, _, member, ?_⟩
    cases r <;> simp_all [queueCalls]

def capacity (maxJobs : ℕ) : Option ℕ := if maxJobs = 0 then none else some maxJobs

def fifo (x : ThreadPool N C) : Fifo (Task C) := ⟨x.tasks, x.stop⟩

theorem Effect.queue {t : Party N C} {k : Call N C} {e : Exit (ThreadPool N C) Cond (Reply N C)}
    (effect : Effect maxJobs x k e) (before : Fifo.Runs (capacity maxJobs) (queued h) x.fifo) :
    Fifo.Runs (capacity maxJobs) (queued (h ++ [(t, k, e.reply)])) e.shared.fifo := by
  rw [queued_snoc]
  cases effect with
  | rejected stopped => exact before.snoc (.refuse stopped)
  | accepted running slot =>
    refine before.snoc (.accept running fun n limit => ?_)
    by_cases bounded : maxJobs = 0
    · simp [capacity, bounded] at limit
    · obtain rfl : maxJobs = n := by simpa [capacity, bounded] using limit
      exact slot bounded
  | stop | destroy => exact before.snoc .close
  | stopNow =>
    have closed := before.snoc (t := t) .close
    have cleared := closed.snoc (t := t) .clear
    simpa [queueCalls, fifo] using cleared
  | exited empty stopped => exact before.snoc (.drained empty stopped)
  | took head => exact before.snoc (.take head)
  | _ => simpa [queueCalls, fifo] using before

variable [DecidableEq C] [Fintype C]
variable {s : PoolState N C} {allow : PoolState N C → Act (Party N C) (Call N C) → Prop}

theorem queue_refines (reached : (monitor N C maxJobs).lts.Reaches allow s) :
    Fifo.Runs (capacity maxJobs) (queued s.history) s.shared.fifo := by
  refine (carry (I := fun x h => Fifo.Runs (capacity maxJobs) (queued h) x.fifo)
    (P := fun _ _ _ _ => True) reached .nil (fun _ _ _ _ _ => trivial)
    (fun _ _ _ _ _ _ _ _ _ _ _ _ _ => trivial) fun x h t k x' r before _ left => ?_).1
  obtain ⟨e, effect, rfl, rfl⟩ := passes_effect left
  exact effect.queue before

theorem tasks_conserved (reached : (monitor N C maxJobs).lts.Reaches allow s) :
    accepted s.history = removed s.history ++ s.shared.tasks ∧
    (s.shared.stop = true ↔ Stopped s.history) ∧
    (maxJobs ≠ 0 → s.shared.tasks.length ≤ maxJobs) := by
  obtain ⟨values, shut, bound⟩ := (queue_refines reached).conserved
  rw [accepted_queued, removed_queued] at values
  rw [shut_queued] at shut
  exact ⟨values, shut, fun bounded => bound maxJobs (by simp [capacity, bounded])⟩

end Celestite.ThreadPool
