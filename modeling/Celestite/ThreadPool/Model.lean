import Celestite.Concurrency.Monitor

/-!
# The thread pool

`clst::ThreadPool`: workers that take tasks from a deque under a mutex, clients that enqueue
tasks, stop the pool or wait for it, and the owner that destroys it. `cond` is for workers,
`cond_enqueue` for clients that wait for a slot and `working_cond` for clients in `wait_all`.
-/

namespace Celestite
open Concurrency

/-- The task a client makes, by the client and the number of tasks it made before. -/
abbrev Task (C : Type*) := C × ℕ

/-- Where a worker is in `worker_loop`, with its local variable `task`. -/
inductive Worker (C : Type*) where
  | waiting
  | holding (task : Task C)
  | running (task : Task C)
  | finished
  | exited
  deriving DecidableEq

namespace Worker
variable {C : Type*}

/-- One between taking a task and the decrement of `nb_working` that goes with it. -/
def load : Worker C → ℕ
  | holding _ | running _ | finished => 1
  | _ => 0

def held : Worker C → List (Task C)
  | holding task => [task]
  | _ => []

def current : Worker C → List (Task C)
  | running task => [task]
  | _ => []

end Worker

/-- The fields of the class and what is local to its threads: the workers' positions, and how many
workers the destructor has joined once it has called `stop`. -/
structure ThreadPool (N : ℕ) (C : Type*) where
  tasks : List (Task C) := []
  stop : Bool := false
  nbWorking : ℕ := 0
  workers : Fin N → Worker C := fun _ => .waiting
  joined : Option ℕ := none

namespace ThreadPool
variable {N : ℕ} {C : Type*}

abbrev Party (N : ℕ) (C : Type*) := Fin N ⊕ Option C

abbrev worker (w : Fin N) : Party N C := .inl w
abbrev client (c : C) : Party N C := .inr (some c)
abbrev owner : Party N C := .inr none

inductive Cond where
  | cond
  | workingCond
  | condEnqueue
  deriving DecidableEq

/-- The critical sections of the methods and of `worker_loop`; `run` and `ran` are the beginning and
the end of `task()`, outside the lock. `submit` and `enqueue` are `enqueueTask`. -/
inductive Call (N : ℕ) (C : Type*) where
  | enqueueTask (task : Task C)
  | stop
  | stopNow
  | waitAll
  | take (w : Fin N)
  | run (w : Fin N) (task : Task C)
  | ran (w : Fin N) (task : Task C)
  | decrement (w : Fin N)
  | destroy
  | join (w : Fin N)
  deriving DecidableEq

/-- What a section did; `rejected` is the exception `EnqueueBlocked`. -/
inductive Reply (N : ℕ) (C : Type*) where
  | accepted (task : Task C)
  | rejected (task : Task C)
  | stopped
  | discarded (tasks : List (Task C))
  | waited
  | took (w : Fin N) (task : Task C)
  | exited (w : Fin N)
  | began (w : Fin N) (task : Task C)
  | ended (w : Fin N) (task : Task C)
  | decremented (w : Fin N)
  | joined (w : Fin N)
  deriving DecidableEq

abbrev PoolSection (N : ℕ) (C : Type*) := Section (ThreadPool N C) Cond (Reply N C)

def enqueueTask (maxJobs : ℕ) (task : Task C) : PoolSection N C where
  waits := if maxJobs = 0 then none else some .condEnqueue
  guard x := maxJobs = 0 || (decide (x.tasks.length < maxJobs) || x.stop)
  body x :=
    if x.stop then { shared := x, reply := .rejected task }
    else
      { shared := { x with tasks := x.tasks ++ [task] }
        reply := .accepted task
        owed := [.one .cond] }

/-- The notifications `stop` and `stop_now` issue after unlocking. -/
def stopNotifies (maxJobs : ℕ) : List (Notify Cond) :=
  .all .cond :: if maxJobs = 0 then [] else [.all .condEnqueue]

def stopPool (maxJobs : ℕ) : PoolSection N C where
  body x :=
    { shared := { x with stop := true }
      reply := .stopped
      owed := stopNotifies maxJobs }

def stopNow (maxJobs : ℕ) : PoolSection N C where
  body x :=
    { shared := { x with stop := true, tasks := [] }
      reply := .discarded x.tasks
      broadcast := if x.nbWorking = 0 then [.workingCond] else []
      owed := stopNotifies maxJobs }

def waitAll : PoolSection N C where
  waits := some .workingCond
  guard x := x.nbWorking = 0 && x.tasks.isEmpty
  body x := { shared := x, reply := .waited }

def take (maxJobs : ℕ) (w : Fin N) : PoolSection N C where
  waits := some .cond
  guard x := x.stop || !x.tasks.isEmpty
  body x :=
    match x.tasks with
    | [] =>
      { shared := { x with workers := Function.update x.workers w .exited }
        reply := .exited w }
    | task :: rest =>
      { shared :=
          { x with
            tasks := rest
            nbWorking := x.nbWorking + 1
            workers := Function.update x.workers w (.holding task) }
        reply := .took w task
        owed := if maxJobs = 0 then [] else [.one .condEnqueue] }

def run (w : Fin N) (task : Task C) : PoolSection N C where
  body x :=
    { shared := { x with workers := Function.update x.workers w (.running task) }
      reply := .began w task }

def ran (w : Fin N) (task : Task C) : PoolSection N C where
  body x :=
    { shared := { x with workers := Function.update x.workers w .finished }
      reply := .ended w task }

def decrement (w : Fin N) : PoolSection N C where
  body x :=
    { shared :=
        { x with
          nbWorking := x.nbWorking - 1
          workers := Function.update x.workers w .waiting }
      reply := .decremented w
      broadcast := if x.nbWorking - 1 = 0 then [.workingCond] else [] }

def destroy (maxJobs : ℕ) : PoolSection N C where
  body x :=
    { shared := { x with stop := true, joined := some 0 }
      reply := .stopped
      owed := stopNotifies maxJobs }

def join (w : Fin N) : PoolSection N C where
  guard x := match x.workers w with
    | .exited => true
    | _ => false
  body x := { shared := { x with joined := some (w + 1) }, reply := .joined w }

def sec (maxJobs : ℕ) : Call N C → PoolSection N C
  | .enqueueTask task => enqueueTask maxJobs task
  | .stop => stopPool maxJobs
  | .stopNow => stopNow maxJobs
  | .waitAll => waitAll
  | .take w => take maxJobs w
  | .run w task => run w task
  | .ran w task => ran w task
  | .decrement w => decrement w
  | .destroy => destroy maxJobs
  | .join w => join w

/-- What a section that is entered does. -/
inductive Effect (maxJobs : ℕ) (x : ThreadPool N C) :
    Call N C → Exit (ThreadPool N C) Cond (Reply N C) → Prop where
  | rejected {task : Task C} (stopped : x.stop = true) :
      Effect maxJobs x (.enqueueTask task) { shared := x, reply := .rejected task }
  | accepted {task : Task C} (running : x.stop = false)
      (slot : maxJobs ≠ 0 → x.tasks.length < maxJobs) :
      Effect maxJobs x (.enqueueTask task)
        { shared := { x with tasks := x.tasks ++ [task] }
          reply := .accepted task
          owed := [.one .cond] }
  | stop : Effect maxJobs x .stop
      { shared := { x with stop := true }, reply := .stopped, owed := stopNotifies maxJobs }
  | stopNow : Effect maxJobs x .stopNow
      { shared := { x with stop := true, tasks := [] }
        reply := .discarded x.tasks
        broadcast := if x.nbWorking = 0 then [.workingCond] else []
        owed := stopNotifies maxJobs }
  | waitAll (idle : x.nbWorking = 0) (empty : x.tasks = []) :
      Effect maxJobs x .waitAll { shared := x, reply := .waited }
  | exited {w : Fin N} (empty : x.tasks = []) (stopped : x.stop = true) :
      Effect maxJobs x (.take w)
        { shared := { x with workers := Function.update x.workers w .exited }, reply := .exited w }
  | took {w : Fin N} {task : Task C} {rest : List (Task C)} (head : x.tasks = task :: rest) :
      Effect maxJobs x (.take w)
        { shared :=
            { x with
              tasks := rest
              nbWorking := x.nbWorking + 1
              workers := Function.update x.workers w (.holding task) }
          reply := .took w task
          owed := if maxJobs = 0 then [] else [.one .condEnqueue] }
  | run {w : Fin N} {task : Task C} : Effect maxJobs x (.run w task)
      { shared := { x with workers := Function.update x.workers w (.running task) }
        reply := .began w task }
  | ran {w : Fin N} {task : Task C} : Effect maxJobs x (.ran w task)
      { shared := { x with workers := Function.update x.workers w .finished }
        reply := .ended w task }
  | decrement {w : Fin N} : Effect maxJobs x (.decrement w)
      { shared :=
          { x with
            nbWorking := x.nbWorking - 1
            workers := Function.update x.workers w .waiting }
        reply := .decremented w
        broadcast := if x.nbWorking - 1 = 0 then [.workingCond] else [] }
  | destroy : Effect maxJobs x .destroy
      { shared := { x with stop := true, joined := some 0 }
        reply := .stopped
        owed := stopNotifies maxJobs }
  | join {w : Fin N} (exited : x.workers w = .exited) : Effect maxJobs x (.join w)
      { shared := { x with joined := some (w + 1) }, reply := .joined w }

theorem sec_effect {maxJobs : ℕ} {x : ThreadPool N C} {k : Call N C}
    (ready : (sec maxJobs k).guard x = true) : Effect maxJobs x k ((sec maxJobs k).body x) := by
  cases k with
  | enqueueTask task =>
    cases stopped : x.stop with
    | true => simpa [sec, enqueueTask, stopped] using Effect.rejected stopped
    | false =>
      have slot : maxJobs ≠ 0 → x.tasks.length < maxJobs := by
        simpa [sec, enqueueTask, stopped, or_iff_not_imp_left] using ready
      simpa [sec, enqueueTask, stopped] using Effect.accepted stopped slot
  | take w =>
    cases head : x.tasks with
    | nil =>
      have stopped : x.stop = true := by simpa [sec, take, head] using ready
      simpa [sec, take, head] using Effect.exited head stopped
    | cons task rest => simpa [sec, take, head] using Effect.took head
  | waitAll =>
    obtain ⟨idle, empty⟩ : x.nbWorking = 0 ∧ x.tasks = [] := by simpa [sec, waitAll] using ready
    exact .waitAll idle empty
  | join w =>
    refine .join ?_
    cases e : x.workers w <;> simp_all [sec, join]
  | stop => exact .stop
  | stopNow => exact .stopNow
  | run w task => exact .run
  | ran w task => exact .ran
  | decrement w => exact .decrement
  | destroy => exact .destroy

abbrev History (N : ℕ) (C : Type*) := List (Party N C × Call N C × Reply N C)

namespace Reply

def accepts : Reply N C → List (Task C)
  | accepted task => [task]
  | _ => []

def rejects : Reply N C → List (Task C)
  | rejected task => [task]
  | _ => []

end Reply

def accepted (h : History N C) : List (Task C) := h.flatMap (·.2.2.accepts)

def rejected (h : History N C) : List (Task C) := h.flatMap (·.2.2.rejects)

@[simp] theorem accepted_snoc (h : History N C) (e : Party N C × Call N C × Reply N C) :
    accepted (h ++ [e]) = accepted h ++ e.2.2.accepts := by simp [accepted]

@[simp] theorem rejected_snoc (h : History N C) (e : Party N C × Call N C × Reply N C) :
    rejected (h ++ [e]) = rejected h ++ e.2.2.rejects := by simp [rejected]

variable [DecidableEq C]

def made (h : History N C) (c : C) : ℕ := (accepted h ++ rejected h).countP (·.1 = c)

variable [Fintype C]

abbrev PoolState (N : ℕ) (C : Type*) := State (Party N C) (ThreadPool N C) Cond (Call N C) (Reply N C)

/-- Clients make any calls in any order until the destructor is called, which happens only when no
client is in a call; the destructor joins the workers in turn. -/
def mayStart (s : PoolState N C) : Party N C → Call N C → Bool
  | .inl v, .take w => v == w && s.shared.workers w == .waiting
  | .inl v, .run w task => v == w && s.shared.workers w == .holding task
  | .inl v, .ran w task => v == w && s.shared.workers w == .running task
  | .inl v, .decrement w => v == w && s.shared.workers w == .finished
  | .inr (some c), .enqueueTask task =>
      s.shared.joined.isNone && (s.phase owner).isOutside && task == (c, made s.history c)
  | .inr (some _), .stop | .inr (some _), .stopNow | .inr (some _), .waitAll =>
      s.shared.joined.isNone && (s.phase owner).isOutside
  | .inr none, .destroy => s.shared.joined.isNone && decide (∀ c, (s.phase (client c)).isOutside = true)
  | .inr none, .join w => s.shared.joined == some w.val
  | _, _ => false

def monitor (N : ℕ) (C : Type*) [DecidableEq C] [Fintype C] (maxJobs : ℕ) :
    Monitor (Party N C) (ThreadPool N C) Cond (Call N C) (Reply N C) where
  init := {}
  sec := sec maxJobs
  mayStart := mayStart

end ThreadPool
end Celestite
