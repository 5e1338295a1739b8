import Celestite.Concurrency.Future
import Celestite.ThreadPool.Progress

/-!
# The futures of `submit`

A task is a `packaged_task`: calling it stores the result or the exception of its callable, and
destroying it uncalled breaks its promise. `stop_now` destroys what is queued, a rejected task is
destroyed on the way out, and the destructor destroys what is left in the deque.
-/

namespace Celestite.ThreadPool
open Concurrency Monitor

variable {N : ℕ} {C ρ : Type*} {maxJobs : ℕ}

/-- `outcome` is what the callable of each task returns or throws. -/
def Reply.settles (outcome : Task C → ρ) : Reply N C → List (Future.Event (Task C) ρ)
  | ended _ task => [.store task (outcome task)]
  | rejected task => [.abandon [task]]
  | discarded tasks => [.abandon tasks]
  | _ => []

variable [DecidableEq C]

/-- The shared states of the futures; none once a task has been called a second time. -/
def futures (outcome : Task C → ρ) (h : History N C) : Option (Task C → Future ρ) :=
  Future.run (h.flatMap (·.2.2.settles outcome)) fun _ => .pending

/-- Queued, or taken by a worker that has not finished it. -/
def Underway (x : ThreadPool N C) (task : Task C) : Prop :=
  task ∈ x.tasks ∨ ∃ w, x.workers w = .holding task ∨ x.workers w = .running task

/-- What the futures are, by what became of the tasks. -/
structure Told (outcome : Task C → ρ) (h : History N C) (F : Task C → Future ρ) : Prop where
  ready : ∀ w, ∀ task ∈ endedBy w h, F task = .ready (outcome task)
  refused : ∀ task ∈ rejected h, F task = .broken
  dropped : ∀ task ∈ discarded h, F task = .broken
  others : ∀ task, (∀ w, task ∉ endedBy w h) → task ∉ rejected h → task ∉ discarded h → F task = .pending

section
variable {outcome : Task C → ρ} {h : History N C} {F : Task C → Future ρ}

omit [DecidableEq C] in
theorem discarded_snoc (h : History N C) (e : Party N C × Call N C × Reply N C) :
    discarded (h ++ [e]) = discarded h ++ e.2.2.drops := by simp [discarded]

theorem futures_append (h h' : History N C) :
    futures outcome (h ++ h') =
      (futures outcome h).bind (Future.run (h'.flatMap (·.2.2.settles outcome))) := by
  rw [futures, List.flatMap_append, Future.run_append, futures]

theorem futures_snoc {e : Party N C × Call N C × Reply N C} (before : futures outcome h = some F) :
    futures outcome (h ++ [e]) = Future.run (e.2.2.settles outcome) F := by
  rw [futures_append, before, Option.bind_some, List.flatMap_singleton]

omit [DecidableEq C] in
theorem Told.same {t : Party N C} {k : Call N C} {r : Reply N C} (told : Told outcome h F)
    (ends : ∀ w, r.ends w = []) (rejects : r.rejects = []) (drops : r.drops = []) :
    Told outcome (h ++ [(t, k, r)]) F := by
  constructor <;> simp only [endedBy_snoc, rejected_snoc, discarded_snoc, ends, rejects, drops, List.append_nil]
  · exact told.ready
  · exact told.refused
  · exact told.dropped
  · exact told.others

theorem Told.ends {t : Party N C} {k : Call N C} {w : Fin N} {task : Task C} (told : Told outcome h F)
    (new : task ∉ rejected h ∧ task ∉ discarded h) :
    Told outcome (h ++ [(t, k, .ended w task)]) (Function.update F task (.ready (outcome task))) := by
  constructor
  · intro v other member
    by_cases same : other = task
    · rw [same, Function.update_self]
    · rw [Function.update_of_ne same]
      rw [endedBy_snoc, List.mem_append] at member
      rcases member with before | now
      · exact told.ready v other before
      · simp only [Reply.ends] at now
        split_ifs at now
        · exact absurd (List.mem_singleton.mp now) same
        · contradiction
  · intro other member
    have before : other ∈ rejected h := by simpa [Reply.rejects] using member
    have apart : other ≠ task := by rintro rfl; exact new.1 before
    rw [Function.update_of_ne apart]
    exact told.refused other before
  · intro other member
    have before : other ∈ discarded h := by simpa [discarded_snoc, Reply.drops] using member
    have apart : other ≠ task := by rintro rfl; exact new.2 before
    rw [Function.update_of_ne apart]
    exact told.dropped other before
  · intro other none kept spared
    have apart : other ≠ task := by
      rintro rfl
      exact none w (by simp [Reply.ends])
    rw [Function.update_of_ne apart]
    refine told.others other (fun v before => none v ?_) ?_ ?_
    · rw [endedBy_snoc]
      exact List.mem_append_left _ before
    · simpa [Reply.rejects] using kept
    · simpa [discarded_snoc, Reply.drops] using spared

/-- The promises of tasks that nothing became of are broken. -/
theorem Told.breaks {t : Party N C} {k : Call N C} {r : Reply N C} {tasks : List (Task C)}
    (told : Told outcome h F) (ends : ∀ w, r.ends w = [])
    (breaks : (r.rejects = tasks ∧ r.drops = []) ∨ (r.rejects = [] ∧ r.drops = tasks))
    (pending : ∀ task ∈ tasks, F task = .pending) :
    Told outcome (h ++ [(t, k, r)]) (Future.abandonAll tasks F) := by
  have gone : ∀ task, task ∈ rejected (h ++ [(t, k, r)]) ∨ task ∈ discarded (h ++ [(t, k, r)]) ↔
      (task ∈ rejected h ∨ task ∈ discarded h) ∨ task ∈ tasks := by
    intro task
    rw [rejected_snoc, discarded_snoc, List.mem_append, List.mem_append]
    rcases breaks with ⟨all, none⟩ | ⟨none, all⟩ <;> rw [all, none] <;> simp [or_assoc, or_comm, or_left_comm]
  have broken : ∀ task, task ∈ rejected (h ++ [(t, k, r)]) ∨ task ∈ discarded (h ++ [(t, k, r)]) →
      Future.abandonAll tasks F task = .broken := by
    intro task member
    by_cases now : task ∈ tasks
    · exact Future.abandonAll_of_mem now (pending task now)
    · rw [Future.abandonAll_of_not_mem now]
      rcases ((gone task).mp member).resolve_right now with rejected | discarded
      · exact told.refused task rejected
      · exact told.dropped task discarded
  constructor
  · intro w task member
    rw [endedBy_snoc, ends, List.append_nil] at member
    have ready := told.ready w task member
    rw [Future.abandonAll_settled tasks (by rw [ready]; simp), ready]
  · exact fun task member => broken task (.inl member)
  · exact fun task member => broken task (.inr member)
  · intro task none kept spared
    have before := (gone task).not.mp (not_or.mpr ⟨kept, spared⟩)
    rw [not_or, not_or] at before
    rw [Future.abandonAll_of_not_mem before.2]
    refine told.others task (fun w member => none w ?_) before.1.1 before.1.2
    rw [endedBy_snoc]
    exact List.mem_append_left _ member

end

variable [Fintype C] {s : PoolState N C} {allow : PoolState N C → Act (Party N C) (Call N C) → Prop}
  {outcome : Task C → ρ}

section
variable (reached : (monitor N C maxJobs).lts.Reaches allow s)
include reached

theorem ended_begun {w : Fin N} {task : Task C} (member : task ∈ endedBy w s.history) :
    task ∈ begunBy w s.history := by
  rw [(sound reached).1.2.ended w]
  exact List.mem_append_left _ member

theorem begun_takenBy {w : Fin N} {task : Task C} (member : task ∈ begunBy w s.history) :
    task ∈ takenBy w s.history := by
  rw [(sound reached).1.2.begun w]
  exact List.mem_append_left _ member

theorem accepted_iff {task : Task C} :
    task ∈ accepted s.history ↔
      task ∈ taken s.history ∨ task ∈ discarded s.history ∨ task ∈ s.shared.tasks := by
  rw [(tasks_conserved reached).1, List.mem_append, (removed_perm _).mem_iff, List.mem_append, or_assoc]

theorem places_nodup : (taken s.history ++ discarded s.history ++ s.shared.tasks).Nodup := by
  have once := (sound reached).1.1.once
  have values := (tasks_conserved reached).1
  rw [values] at once
  exact ((removed_perm s.history).append_right _).nodup_iff.mp (List.nodup_append.mp once).1

theorem ended_accepted {w : Fin N} {task : Task C} (member : task ∈ endedBy w s.history) :
    task ∈ taken s.history :=
  begun_taken reached (ended_begun reached member)

/-- A task that is underway has not ended and was not discarded. -/
theorem underway_apart {task : Task C} (underway : Underway s.shared task) :
    (∀ w, task ∉ endedBy w s.history) ∧ task ∉ discarded s.history := by
  obtain ⟨removed, -, queue⟩ := List.nodup_append.mp (places_nodup reached)
  obtain ⟨once, -, apart⟩ := List.nodup_append.mp removed
  rcases underway with queued | ⟨w, position⟩
  · constructor
    · exact fun v member => queue task (List.mem_append_left _ (ended_accepted reached member)) task queued rfl
    · exact fun dropped => queue task (List.mem_append_right _ dropped) task queued rfl
  · have held : takenBy w s.history = endedBy w s.history ++ [task] := by
      have begun := (sound reached).1.2.begun w
      have ended := (sound reached).1.2.ended w
      rcases position with holding | running
      · rw [holding] at begun ended
        rw [begun, ended]
        simp [Worker.held, Worker.current]
      · rw [running] at begun ended
        rw [begun, ended]
        simp [Worker.held, Worker.current]
    have mine : task ∈ takenBy w s.history := by
      rw [held]
      exact List.mem_append_right _ (List.mem_singleton_self task)
    have took := (takenBy_sublist w s.history).mem mine
    refine ⟨fun v member => ?_, fun dropped => apart task took task dropped rfl⟩
    obtain ⟨u, -, others⟩ := taken_once once took
    have home : ∀ v, task ∈ takenBy v s.history → v = u := fun v has =>
      by_contra fun other => others v other has
    obtain rfl := (home v (begun_takenBy reached (ended_begun reached member))).trans (home w mine).symm
    have nodup := (takenBy_sublist v s.history).nodup once
    rw [held, List.nodup_append] at nodup
    exact nodup.2.2 task member task (List.mem_singleton_self task) rfl

/-- What was accepted is underway, has ended, or was discarded. -/
theorem accepted_cases {task : Task C} (member : task ∈ accepted s.history) :
    Underway s.shared task ∨ (∃ w, task ∈ endedBy w s.history) ∨ task ∈ discarded s.history := by
  rcases (accepted_iff reached).mp member with took | dropped | queued
  · obtain ⟨⟨w, task⟩, taker, rfl⟩ := List.mem_map.mp took
    have mine := mem_takenBy.mpr taker
    rw [(sound reached).1.2.begun w, (sound reached).1.2.ended w, List.mem_append, List.mem_append] at mine
    rcases mine with (ended | running) | holding
    · exact .inr (.inl ⟨w, ended⟩)
    · refine .inl (.inr ⟨w, .inr ?_⟩)
      cases position : s.shared.workers w <;> simp_all [Worker.current]
    · refine .inl (.inr ⟨w, .inl ?_⟩)
      cases position : s.shared.workers w <;> simp_all [Worker.held]
  · exact .inr (.inr dropped)
  · exact .inl (.inl queued)

end

theorem underway_accepted (reached : (monitor N C maxJobs).lts.Reaches allow s) {task : Task C}
    (underway : Underway s.shared task) : task ∈ accepted s.history := by
  rw [accepted_iff reached]
  rcases underway with queued | ⟨w, position⟩
  · exact .inr (.inr queued)
  · refine .inl ((takenBy_sublist w s.history).mem ?_)
    rw [(sound reached).1.2.begun w, (sound reached).1.2.ended w, List.mem_append, List.mem_append]
    rcases position with holding | running
    · simp [holding, Worker.held]
    · simp [running, Worker.current]

theorem told_step {t : Party N C} {k : Call N C} {e : Exit (ThreadPool N C) Cond (Reply N C)}
    {F : Task C → Future ρ} (reached : (monitor N C maxJobs).lts.Reaches allow s)
    (turn : Entitled s.shared s.history t k) (effect : Effect maxJobs s.shared k e)
    (told : Told outcome s.history F) :
    ∃ F', Future.run (e.reply.settles outcome) F = some F' ∧
      Told outcome (s.history ++ [(t, k, e.reply)]) F' := by
  have apart := (removed_nodup reached).2
  have pending : ∀ task, Underway s.shared task → F task = .pending := fun task underway => by
    obtain ⟨unended, kept⟩ := underway_apart reached underway
    exact told.others task unended (fun thrown => apart task thrown (underway_accepted reached underway)) kept
  cases effect with
  | @ran w task =>
    have underway : Underway s.shared task := .inr ⟨w, .inr turn.ran.2⟩
    refine ⟨Function.update F task (.ready (outcome task)), ?_, told.ends ⟨fun thrown => ?_, ?_⟩⟩
    · rw [Reply.settles, Future.run, List.foldlM_cons, Future.happen_store _ (pending task underway)]
      rfl
    · exact apart task thrown (underway_accepted reached underway)
    · exact (underway_apart reached underway).2
  | stopNow =>
    refine ⟨_, rfl, told.breaks (fun _ => rfl) (.inr ⟨rfl, rfl⟩) fun task queued => ?_⟩
    exact pending task (.inl queued)
  | @rejected task stopped =>
    refine ⟨_, rfl, told.breaks (fun _ => rfl) (.inl ⟨rfl, rfl⟩) fun other member => ?_⟩
    obtain rfl := List.mem_singleton.mp member
    have absent := (sound reached).1.1.absent turn.enqueueTask.2
    rw [List.mem_append, not_or, accepted_iff reached, not_or, not_or] at absent
    obtain ⟨⟨untaken, kept, -⟩, unrejected⟩ := absent
    exact told.others other (fun w member => untaken (ended_accepted reached member)) unrejected kept
  | _ => exact ⟨F, rfl, told.same (fun _ => rfl) rfl rfl⟩

/-- No task is called twice. -/
theorem told_of_reaches (outcome : Task C → ρ) (reached : (monitor N C maxJobs).lts.Reaches allow s) :
    ∃ F, futures outcome s.history = some F ∧ Told outcome s.history F := by
  refine reached.invariant (I := fun s => ∃ F, futures outcome s.history = some F ∧
    Told outcome s.history F) ?_ fun {s a s'} reached ih _ taken => ?_
  · refine ⟨fun _ => .pending, rfl, ?_⟩
    constructor <;> simp [lts, endedBy, rejected, discarded]
  obtain ⟨F, before, told⟩ := ih
  cases step_move taken with
  | @leave t k here ready =>
    have turn := (sound reached).2 t k (contending_inside here)
    obtain ⟨F', settled, told'⟩ := told_step reached turn (sec_effect ready) told
    exact ⟨F', (futures_snoc before).trans settled, told'⟩
  | throws here ready fails => simp [monitor, sec_fails] at fails
  | _ => exact ⟨F, before, told⟩

end Celestite.ThreadPool
