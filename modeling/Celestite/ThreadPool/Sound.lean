import Mathlib.Algebra.Order.Ring.Nat
import Celestite.Concurrency.Carry
import Celestite.Concurrency.Census
import Celestite.ThreadPool.Model

/-!
# What holds of the pool in every state

Every task has its own identity, each worker runs the tasks it takes one after the other, and
`nb_working` counts the workers between taking a task and the decrement that goes with it.
-/

namespace Celestite.ThreadPool
open Concurrency Monitor

variable {N : ℕ} {C : Type*} {maxJobs : ℕ} {x : ThreadPool N C} {h : History N C}

namespace Reply

def takes (w : Fin N) : Reply N C → List (Task C)
  | took v task => if v = w then [task] else []
  | _ => []

def begins (w : Fin N) : Reply N C → List (Task C)
  | began v task => if v = w then [task] else []
  | _ => []

def ends (w : Fin N) : Reply N C → List (Task C)
  | ended v task => if v = w then [task] else []
  | _ => []

/-- The decrements of `nb_working` by worker `w`. -/
def returns (w : Fin N) : Reply N C → ℕ
  | decremented v => if v = w then 1 else 0
  | _ => 0

end Reply

def takenBy (w : Fin N) (h : History N C) : List (Task C) := h.flatMap (·.2.2.takes w)

def begunBy (w : Fin N) (h : History N C) : List (Task C) := h.flatMap (·.2.2.begins w)

def endedBy (w : Fin N) (h : History N C) : List (Task C) := h.flatMap (·.2.2.ends w)

def returnedBy (w : Fin N) (h : History N C) : ℕ := (h.map (·.2.2.returns w)).sum

section Snoc
variable (w : Fin N) (h : History N C) (e : Party N C × Call N C × Reply N C)

@[simp] theorem takenBy_snoc : takenBy w (h ++ [e]) = takenBy w h ++ e.2.2.takes w := by simp [takenBy]

@[simp] theorem begunBy_snoc : begunBy w (h ++ [e]) = begunBy w h ++ e.2.2.begins w := by simp [begunBy]

@[simp] theorem endedBy_snoc : endedBy w (h ++ [e]) = endedBy w h ++ e.2.2.ends w := by simp [endedBy]

@[simp] theorem returnedBy_snoc : returnedBy w (h ++ [e]) = returnedBy w h + e.2.2.returns w := by
  simp [returnedBy]

end Snoc

variable [DecidableEq C]

/-- Each task is enqueued at most once, and is one its client made. -/
structure Fresh (h : History N C) : Prop where
  once : (accepted h ++ rejected h).Nodup
  numbered : ∀ task ∈ accepted h ++ rejected h, task.2 < made h task.1

def Entitled (x : ThreadPool N C) (h : History N C) : Party N C → Call N C → Prop
  | .inl v, .take w => v = w ∧ x.workers w = .waiting
  | .inl v, .run w task => v = w ∧ x.workers w = .holding task
  | .inl v, .ran w task => v = w ∧ x.workers w = .running task
  | .inl v, .decrement w => v = w ∧ x.workers w = .finished
  | .inr (some c), .enqueueTask task => task = (c, made h c)
  | .inr (some _), .stop | .inr (some _), .stopNow | .inr (some _), .waitAll => True
  | .inr none, .destroy => x.joined = none
  | .inr none, .join w => x.joined = some w.val
  | _, _ => False

/-- The positions of the workers agree with what they did, with `nb_working` and with the
destructor's progress, and a worker leaves only when the pool is stopped and the queue empty. -/
structure Manned (x : ThreadPool N C) (h : History N C) : Prop where
  begun : ∀ w, takenBy w h = begunBy w h ++ (x.workers w).held
  ended : ∀ w, begunBy w h = endedBy w h ++ (x.workers w).current
  returned : ∀ w, (takenBy w h).length = returnedBy w h + (x.workers w).load
  working : x.nbWorking = census Worker.load x.workers
  exited : ∀ w, x.workers w = .exited → x.stop = true ∧ x.tasks = []
  joined : ∀ n, x.joined = some n → ∀ w : Fin N, w < n → x.workers w = .exited

theorem Entitled.enqueueTask {t : Party N C} {task : Task C} (turn : Entitled x h t (.enqueueTask task)) :
    t = client task.1 ∧ task.2 = made h task.1 := by
  rcases t with v | _ | c <;> simp_all [Entitled]

theorem Entitled.take {t : Party N C} {w : Fin N} (turn : Entitled x h t (.take w)) :
    t = worker w ∧ x.workers w = .waiting := by
  rcases t with v | _ | c <;> simp_all [Entitled]

theorem Entitled.run {t : Party N C} {w : Fin N} {task : Task C} (turn : Entitled x h t (.run w task)) :
    t = worker w ∧ x.workers w = .holding task := by
  rcases t with v | _ | c <;> simp_all [Entitled]

theorem Entitled.ran {t : Party N C} {w : Fin N} {task : Task C} (turn : Entitled x h t (.ran w task)) :
    t = worker w ∧ x.workers w = .running task := by
  rcases t with v | _ | c <;> simp_all [Entitled]

theorem Entitled.decrement {t : Party N C} {w : Fin N} (turn : Entitled x h t (.decrement w)) :
    t = worker w ∧ x.workers w = .finished := by
  rcases t with v | _ | c <;> simp_all [Entitled]

theorem Entitled.destroy {t : Party N C} (turn : Entitled x h t .destroy) :
    t = owner ∧ x.joined = none := by
  rcases t with v | _ | c <;> simp_all [Entitled]

theorem Entitled.join {t : Party N C} {w : Fin N} (turn : Entitled x h t (.join w)) :
    t = owner ∧ x.joined = some w.val := by
  rcases t with v | _ | c <;> simp_all [Entitled]

theorem made_snoc (t : Party N C) (k : Call N C) (r : Reply N C) (c : C) :
    made (h ++ [(t, k, r)]) c = made h c + (r.accepts ++ r.rejects).countP (·.1 = c) := by
  simp only [made, accepted_snoc, rejected_snoc, List.countP_append]
  omega

theorem made_same {t : Party N C} {k : Call N C} {r : Reply N C} (none : r.accepts ++ r.rejects = []) (c : C) :
    made (h ++ [(t, k, r)]) c = made h c := by
  rw [made_snoc, none, List.countP_nil, Nat.add_zero]

/-- A section changes the position of the worker that runs it only, the number of tasks made by
the client that runs it only, and the destructor's progress only when the owner runs it. -/
theorem Effect.frame {u : Party N C} {l : Call N C} {e : Exit (ThreadPool N C) Cond (Reply N C)}
    (effect : Effect maxJobs x l e) (turn : Entitled x h u l) :
    (∀ v, u ≠ worker v → e.shared.workers v = x.workers v) ∧
    (∀ c, u ≠ client c → made (h ++ [(u, l, e.reply)]) c = made h c) ∧
    (u ≠ owner → e.shared.joined = x.joined) := by
  have kept : ∀ {v w : Fin N} {p : Worker C}, worker w ≠ (worker v : Party N C) →
      Function.update x.workers w p v = x.workers v := by
    intro v w p other
    have apart : v ≠ w := by rintro rfl; exact other rfl
    simp [apart]
  cases effect with
  | @rejected task stopped | @accepted task running slot =>
    obtain ⟨rfl, number⟩ := turn.enqueueTask
    refine ⟨fun _ _ => rfl, fun c other => ?_, fun _ => rfl⟩
    have apart : task.1 ≠ c := by rintro rfl; exact other rfl
    simp [made_snoc, Reply.accepts, Reply.rejects, apart]
  | exited empty stopped | took head =>
    obtain ⟨rfl, _⟩ := turn.take
    exact ⟨fun v other => kept other, fun c _ => made_same rfl c, fun _ => rfl⟩
  | run =>
    obtain ⟨rfl, _⟩ := turn.run
    exact ⟨fun v other => kept other, fun c _ => made_same rfl c, fun _ => rfl⟩
  | ran =>
    obtain ⟨rfl, _⟩ := turn.ran
    exact ⟨fun v other => kept other, fun c _ => made_same rfl c, fun _ => rfl⟩
  | decrement =>
    obtain ⟨rfl, _⟩ := turn.decrement
    exact ⟨fun v other => kept other, fun c _ => made_same rfl c, fun _ => rfl⟩
  | destroy =>
    obtain ⟨rfl, _⟩ := turn.destroy
    exact ⟨fun _ _ => rfl, fun c _ => made_same rfl c, fun other => absurd rfl other⟩
  | join exited =>
    obtain ⟨rfl, _⟩ := turn.join
    exact ⟨fun _ _ => rfl, fun c _ => made_same rfl c, fun other => absurd rfl other⟩
  | stop | stopNow | waitAll _ _ =>
    exact ⟨fun _ _ => rfl, fun c _ => made_same rfl c, fun _ => rfl⟩

theorem Entitled.keeps {t u : Party N C} {k l : Call N C} {e : Exit (ThreadPool N C) Cond (Reply N C)}
    (mine : Entitled x h t k) (turn : Entitled x h u l) (effect : Effect maxJobs x l e) (other : t ≠ u) :
    Entitled e.shared (h ++ [(u, l, e.reply)]) t k := by
  obtain ⟨positions, numbers, progress⟩ := effect.frame turn
  rcases t with v | _ | c
  · have same := positions v (Ne.symm other)
    cases k <;> simp_all [Entitled]
  · have same := progress (Ne.symm other)
    cases k <;> simp_all [Entitled]
  · have same := numbers c (Ne.symm other)
    cases k <;> simp_all [Entitled]

theorem Fresh.absent {task : Task C} (fresh : Fresh h) (number : task.2 = made h task.1) :
    task ∉ accepted h ++ rejected h := fun member => by
  have := fresh.numbered task member
  omega

theorem Fresh.snoc {u : Party N C} {l : Call N C} {task : Task C} {r : Reply N C} (fresh : Fresh h)
    (number : task.2 = made h task.1) (reply : r = .accepted task ∨ r = .rejected task) :
    Fresh (h ++ [(u, l, r)]) := by
  have perm : (accepted (h ++ [(u, l, r)]) ++ rejected (h ++ [(u, l, r)])).Perm
      (task :: (accepted h ++ rejected h)) := by
    rcases reply with rfl | rfl
    · simp [Reply.accepts, Reply.rejects]
    · simpa [Reply.accepts, Reply.rejects] using
        (List.perm_append_singleton task (accepted h ++ rejected h))
  have count : ∀ c, made (h ++ [(u, l, r)]) c = made h c + if task.1 = c then 1 else 0 := by
    intro c
    rcases reply with rfl | rfl <;> simp [made_snoc, Reply.accepts, Reply.rejects, List.countP_singleton]
  refine ⟨perm.nodup_iff.mpr (List.nodup_cons.mpr ⟨fresh.absent number, fresh.once⟩), fun other member => ?_⟩
  rw [count]
  rcases List.mem_cons.mp (perm.mem_iff.mp member) with rfl | member
  · simp [number]
  · have := fresh.numbered other member
    omega

theorem Fresh.step {u : Party N C} {l : Call N C} {e : Exit (ThreadPool N C) Cond (Reply N C)}
    (fresh : Fresh h) (turn : Entitled x h u l) (effect : Effect maxJobs x l e) :
    Fresh (h ++ [(u, l, e.reply)]) := by
  cases effect with
  | rejected stopped => exact fresh.snoc turn.enqueueTask.2 (Or.inr rfl)
  | accepted running slot => exact fresh.snoc turn.enqueueTask.2 (Or.inl rfl)
  | _ =>
    constructor
    · simpa [Reply.accepts, Reply.rejects] using fresh.once
    · simpa [Reply.accepts, Reply.rejects, made_snoc] using fresh.numbered

/-- How a worker's position changes, with the tasks it takes, begins and ends on the way and the
decrements it does. -/
inductive Moves : Worker C → Worker C → List (Task C) → List (Task C) → List (Task C) → ℕ → Prop where
  | stays (p : Worker C) : Moves p p [] [] [] 0
  | exits : Moves .waiting .exited [] [] [] 0
  | takes (task : Task C) : Moves .waiting (.holding task) [task] [] [] 0
  | begins (task : Task C) : Moves (.holding task) (.running task) [] [task] [] 0
  | ends (task : Task C) : Moves (.running task) .finished [] [] [task] 0
  | returns : Moves .finished .waiting [] [] [] 1

section Moves
omit [DecidableEq C]
variable {p p' : Worker C} {ts bs es : List (Task C)} {n : ℕ}

theorem Moves.held (moves : Moves p p' ts bs es n) : p.held ++ ts = bs ++ p'.held := by
  cases moves <;> simp [Worker.held]

theorem Moves.current (moves : Moves p p' ts bs es n) : p.current ++ bs = es ++ p'.current := by
  cases moves <;> simp [Worker.current]

theorem Moves.load (moves : Moves p p' ts bs es n) : p.load + ts.length = n + p'.load := by
  cases moves <;> simp [Worker.load]

theorem Moves.left (moves : Moves .exited p' ts bs es n) : p' = .exited := by
  cases moves
  rfl

end Moves

theorem Effect.moves {u : Party N C} {l : Call N C} {e : Exit (ThreadPool N C) Cond (Reply N C)}
    (effect : Effect maxJobs x l e) (turn : Entitled x h u l) (v : Fin N) :
    Moves (x.workers v) (e.shared.workers v) (e.reply.takes v) (e.reply.begins v) (e.reply.ends v)
      (e.reply.returns v) := by
  cases effect with
  | @exited w empty stopped =>
    by_cases same : v = w
    · subst same
      simpa [Reply.takes, Reply.begins, Reply.ends, Reply.returns, turn.take.2] using Moves.exits
    · simpa [Reply.takes, Reply.begins, Reply.ends, Reply.returns, same] using Moves.stays _
  | @took w task rest head =>
    by_cases same : v = w
    · subst same
      simpa [Reply.takes, Reply.begins, Reply.ends, Reply.returns, turn.take.2] using Moves.takes task
    · simpa [Reply.takes, Reply.begins, Reply.ends, Reply.returns, same, Ne.symm same] using Moves.stays _
  | @run w task =>
    by_cases same : v = w
    · subst same
      simpa [Reply.takes, Reply.begins, Reply.ends, Reply.returns, turn.run.2] using Moves.begins task
    · simpa [Reply.takes, Reply.begins, Reply.ends, Reply.returns, same, Ne.symm same] using Moves.stays _
  | @ran w task =>
    by_cases same : v = w
    · subst same
      simpa [Reply.takes, Reply.begins, Reply.ends, Reply.returns, turn.ran.2] using Moves.ends task
    · simpa [Reply.takes, Reply.begins, Reply.ends, Reply.returns, same, Ne.symm same] using Moves.stays _
  | @decrement w =>
    by_cases same : v = w
    · subst same
      simpa [Reply.takes, Reply.begins, Reply.ends, Reply.returns, turn.decrement.2] using Moves.returns
    · simpa [Reply.takes, Reply.begins, Reply.ends, Reply.returns, same, Ne.symm same] using Moves.stays _
  | _ => exact .stays _

theorem Effect.working {u : Party N C} {l : Call N C} {e : Exit (ThreadPool N C) Cond (Reply N C)}
    (effect : Effect maxJobs x l e) (turn : Entitled x h u l)
    (before : x.nbWorking = census Worker.load x.workers) :
    e.shared.nbWorking = census Worker.load e.shared.workers := by
  have count := fun w p => census_update (Worker.load (C := C)) x.workers w p
  cases effect with
  | @exited w empty stopped =>
    have := count w .exited
    simp only [turn.take.2, Worker.load] at this ⊢
    omega
  | @took w task rest head =>
    have := count w (.holding task)
    simp only [turn.take.2, Worker.load] at this ⊢
    omega
  | @run w task =>
    have := count w (.running task)
    simp only [turn.run.2, Worker.load] at this ⊢
    omega
  | @ran w task =>
    have := count w .finished
    simp only [turn.ran.2, Worker.load] at this ⊢
    omega
  | @decrement w =>
    have := count w .waiting
    simp only [turn.decrement.2, Worker.load] at this ⊢
    omega
  | _ => exact before

omit [DecidableEq C] in
theorem Effect.exited_cases {l : Call N C} {e : Exit (ThreadPool N C) Cond (Reply N C)}
    (effect : Effect maxJobs x l e) {v : Fin N} (left : e.shared.workers v = .exited) :
    x.workers v = .exited ∨ (e.shared.tasks = [] ∧ e.shared.stop = true) := by
  cases effect with
  | exited empty stopped => exact Or.inr ⟨empty, stopped⟩
  | @took w _ _ _ | @run w _ | @ran w _ | @decrement w =>
    by_cases same : v = w
    · subst same
      simp at left
    · exact Or.inl (by simpa [same] using left)
  | _ => exact Or.inl left

theorem Manned.step {u : Party N C} {l : Call N C} {e : Exit (ThreadPool N C) Cond (Reply N C)}
    (m : Manned x h) (turn : Entitled x h u l) (effect : Effect maxJobs x l e) :
    Manned e.shared (h ++ [(u, l, e.reply)]) := by
  -- the destructor joins workers that have left, and none comes back
  have out : ∀ v, x.workers v = .exited → e.shared.workers v = .exited := fun v left => by
    have moves := effect.moves turn v
    rw [left] at moves
    exact moves.left
  refine ⟨fun v => ?_, fun v => ?_, fun v => ?_, effect.working turn m.working, fun v left => ?_,
    fun n progress v lt => ?_⟩
  · rw [takenBy_snoc, begunBy_snoc, m.begun, List.append_assoc, List.append_assoc]
    exact congrArg _ (effect.moves turn v).held
  · rw [begunBy_snoc, endedBy_snoc, m.ended, List.append_assoc, List.append_assoc]
    exact congrArg _ (effect.moves turn v).current
  · have load := (effect.moves turn v).load
    have before := m.returned v
    rw [takenBy_snoc, returnedBy_snoc, List.length_append]
    simp only at load ⊢
    omega
  · rcases effect.exited_cases left with before | ⟨empty, stopped⟩
    · obtain ⟨stopped, empty⟩ := m.exited v before
      cases effect with
      | accepted running slot => simp [running] at stopped
      | took head => simp [head] at empty
      | stop | destroy => exact ⟨rfl, empty⟩
      | stopNow => exact ⟨rfl, rfl⟩
      | _ => exact ⟨stopped, empty⟩
    · exact ⟨stopped, empty⟩
  · cases effect with
    | destroy =>
      obtain rfl := Option.some.inj progress
      omega
    | @join w exited =>
      obtain rfl := Option.some.inj progress
      rcases Nat.lt_or_eq_of_le (Nat.le_of_lt_succ lt) with earlier | same
      · exact m.joined _ turn.join.2 v earlier
      · exact (Fin.ext same : v = w) ▸ exited
    | _ => exact out v (m.joined n progress v lt)

omit [DecidableEq C] in
theorem Manned.init : Manned ({} : ThreadPool N C) [] where
  begun w := rfl
  ended w := rfl
  returned w := rfl
  working := (census_zero.mpr fun _ => rfl).symm
  exited w left := by simp at left
  joined n progress := by simp at progress

variable [Fintype C]

omit [DecidableEq C] [Fintype C] in
theorem sec_fails (k : Call N C) : (sec maxJobs k).fails x = none := by
  cases k <;> rfl

theorem passes_effect {k : Call N C} {x' : ThreadPool N C} {r : Reply N C}
    (left : Passes (monitor N C maxJobs) x k x' r) :
    ∃ e, Effect maxJobs x k e ∧ e.shared = x' ∧ e.reply = r := by
  cases left with
  | body ready => exact ⟨_, sec_effect ready, rfl, rfl⟩
  | fails ready fails => exact absurd ((sec_fails k).symm.trans fails) (by simp)

theorem mayStart_entitled {s : PoolState N C} {t : Party N C} {k : Call N C}
    (may : mayStart s t k = true) : Entitled s.shared s.history t k := by
  rcases t with v | _ | c <;> cases k <;> simp_all [mayStart, Entitled]

variable {s : PoolState N C} {allow : PoolState N C → Act (Party N C) (Call N C) → Prop}

theorem sound (reached : (monitor N C maxJobs).lts.Reaches allow s) :
    (Fresh s.history ∧ Manned s.shared s.history) ∧
    ∀ t k, (s.phase t).inside = some k → Entitled s.shared s.history t k := by
  refine carry (I := fun x h => Fresh h ∧ Manned x h) (P := Entitled) reached
    ⟨⟨by simp [accepted, rejected], by simp [accepted, rejected]⟩, .init⟩
    (fun s t k _ may => mayStart_entitled may) (fun x h t k u l x' r other _ mine turn left => ?_)
    fun x h t k x' r sound turn left => ?_
  · obtain ⟨e, effect, rfl, rfl⟩ := passes_effect left
    exact mine.keeps turn effect other
  · obtain ⟨e, effect, rfl, rfl⟩ := passes_effect left
    exact ⟨sound.1.step turn effect, sound.2.step turn effect⟩

end Celestite.ThreadPool
