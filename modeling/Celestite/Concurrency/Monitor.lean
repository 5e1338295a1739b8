import Mathlib.Data.Fintype.Basic
import Mathlib.Logic.Function.Basic
import Celestite.Concurrency.Lts

/-!
# Monitors

Threads that share one state through critical sections and condition variables. A section is
one atomic step. A thread whose wait predicate is false releases the lock and joins the wait
set in the same step. Notifications a section issues before it unlocks are part of its step;
those it issues afterwards are separate later steps. `notify_one` wakes an arbitrary waiter, or
nobody when there is none; any sleeper may wake by itself; a woken thread checks its predicate
again under the lock.
-/

namespace Celestite.Concurrency

/-- A notification call on a condition variable. -/
inductive Notify (γ : Type*) where
  | one (c : γ)
  | all (c : γ)
  deriving DecidableEq

/-- What a section leaves behind: the state, the reply of the call, the `notify_all` calls made
under the lock and the notifications still to be issued after it. -/
structure Exit (σ γ ρ : Type*) where
  shared : σ
  reply : ρ
  broadcast : List γ := []
  owed : List (Notify γ) := []

/-- A critical section. `fails` is the reply when the user code run by the body throws: the
call is left at once, the state is as before and nothing is notified. -/
structure Section (σ γ ρ : Type*) where
  waits : Option γ := none
  guard : σ → Bool := fun _ => true
  body : σ → Exit σ γ ρ
  fails : σ → Option ρ := fun _ => none

/-- Where a thread is in the call it makes. -/
inductive Phase (κ γ : Type*) where
  | outside
  | entering (k : κ)
  | asleep (k : κ)
  | woken (k : κ)
  | leaving (next : Notify γ) (rest : List (Notify γ))
  deriving DecidableEq

namespace Phase
variable {κ γ : Type*}

/-- The section a thread is about to check the predicate of. -/
def contending : Phase κ γ → Option κ
  | entering k | woken k => some k
  | _ => none

/-- Out of the section, with these notifications to issue before the call returns. -/
def owing : List (Notify γ) → Phase κ γ
  | [] => outside
  | n :: ns => leaving n ns

def rouse : Phase κ γ → Phase κ γ
  | asleep k => woken k
  | p => p

def isOutside : Phase κ γ → Bool
  | outside => true
  | _ => false

/-- Waiting, or about to check whether to wait. -/
def inside : Phase κ γ → Option κ
  | entering k | asleep k | woken k => some k
  | _ => none

/-- In the wait set, or woken from it with the predicate to check. -/
def waiting : Phase κ γ → Option κ
  | asleep k | woken k => some k
  | _ => none

/-- The notifications still to be issued before the call returns. -/
def debts : Phase κ γ → List (Notify γ)
  | leaving n ns => n :: ns
  | _ => []

def settled : Phase κ γ → Bool
  | woken _ | leaving _ _ => false
  | _ => true

end Phase

/-- The shared state, each thread's phase, and the sections completed so far in their order. -/
structure State (ι σ γ κ ρ : Type*) where
  shared : σ
  phase : ι → Phase κ γ
  history : List (ι × κ × ρ) := []

/-- No notification is outstanding and no woken thread is still to check its predicate. -/
def State.Quiet {ι σ γ κ ρ : Type*} (s : State ι σ γ κ ρ) : Prop := ∀ t, (s.phase t).settled = true

instance {ι σ γ κ ρ : Type*} [Fintype ι] (s : State ι σ γ κ ρ) : Decidable s.Quiet :=
  inferInstanceAs (Decidable (∀ t, (s.phase t).settled = true))

inductive Act (ι κ : Type*) where
  | start (t : ι) (k : κ)
  | enter (t : ι)
  | throws (t : ι)
  | notify (t : ι) (wakes : Option ι)
  | spurious (t : ι)

def Act.isThrow {ι κ : Type*} : Act ι κ → Bool
  | .throws _ => true
  | _ => false

def Act.isSpurious {ι κ : Type*} : Act ι κ → Bool
  | .spurious _ => true
  | _ => false

def noThrow {ι σ γ κ ρ : Type*} (_ : State ι σ γ κ ρ) (a : Act ι κ) : Prop := a.isThrow = false

instance {ι σ γ κ ρ : Type*} (s : State ι σ γ κ ρ) (a : Act ι κ) : Decidable (noThrow s a) :=
  inferInstanceAs (Decidable (_ = _))

def Notify.map {γ δ : Type*} (name : γ → δ) : Notify γ → Notify δ
  | one c => .one (name c)
  | all c => .all (name c)

/-- The sections of a program and which of them a thread outside may start. -/
structure Monitor (ι σ γ κ ρ : Type*) where
  init : σ
  sec : κ → Section σ γ ρ
  mayStart : State ι σ γ κ ρ → ι → κ → Bool

namespace Monitor
variable {ι σ γ κ ρ : Type*} [DecidableEq γ]

def sleepsOn (M : Monitor ι σ γ κ ρ) (c : γ) : Phase κ γ → Bool
  | .asleep k => (M.sec k).waits == some c
  | _ => false

def wokenFrom (M : Monitor ι σ γ κ ρ) (c : γ) : Phase κ γ → Bool
  | .woken k => (M.sec k).waits == some c
  | _ => false

def wake (M : Monitor ι σ γ κ ρ) (cs : List γ) (phase : ι → Phase κ γ) (u : ι) : Phase κ γ :=
  if cs.any (fun c => M.sleepsOn c (phase u)) then (phase u).rouse else phase u

variable [DecidableEq ι]

def leave (M : Monitor ι σ γ κ ρ) (s : State ι σ γ κ ρ) (t : ι) (k : κ) : State ι σ γ κ ρ :=
  let e := (M.sec k).body s.shared
  { shared := e.shared
    phase := Function.update (M.wake e.broadcast s.phase) t (.owing e.owed)
    history := s.history ++ [(t, k, e.reply)] }

/-- Thread `t` issues a notification; `wakes` is the waiter a `notify_one` picks. -/
def issue [Fintype ι] (M : Monitor ι σ γ κ ρ) (phase : ι → Phase κ γ) (n : Notify γ)
    (wakes : Option ι) : Option (ι → Phase κ γ) :=
  match n, wakes with
  | .one c, some u =>
      if M.sleepsOn c (phase u) then some (Function.update phase u (phase u).rouse) else none
  | .one c, none => if ∀ u, M.sleepsOn c (phase u) = false then some phase else none
  | .all c, none => some (M.wake [c] phase)
  | .all _, some _ => none

def step [Fintype ι] (M : Monitor ι σ γ κ ρ) (s : State ι σ γ κ ρ) :
    Act ι κ → Option (State ι σ γ κ ρ)
  | .start t k =>
      if (s.phase t).isOutside && M.mayStart s t k then
        some { s with phase := Function.update s.phase t (.entering k) }
      else none
  | .enter t =>
      (s.phase t).contending.bind fun k =>
        if (M.sec k).guard s.shared then some (M.leave s t k)
        -- A false guard with no condition variable blocks the thread where it is.
        else if (M.sec k).waits.isSome then
          some { s with phase := Function.update s.phase t (.asleep k) }
        else none
  | .throws t =>
      (s.phase t).contending.bind fun k =>
        if (M.sec k).guard s.shared then
          ((M.sec k).fails s.shared).map fun r =>
            { s with
              phase := Function.update s.phase t .outside
              history := s.history ++ [(t, k, r)] }
        else none
  | .notify t wakes =>
      match s.phase t with
      | .leaving n ns =>
          (M.issue s.phase n wakes).map fun phase =>
            { s with phase := Function.update phase t (.owing ns) }
      | _ => none
  | .spurious t =>
      match s.phase t with
      | .asleep k => some { s with phase := Function.update s.phase t (.woken k) }
      | _ => none

def lts [Fintype ι] (M : Monitor ι σ γ κ ρ) : Lts (State ι σ γ κ ρ) (Act ι κ) where
  init := { shared := M.init, phase := fun _ => .outside }
  step := M.step

/-- No step other than a spurious wakeup is possible. -/
def Stuck [Fintype ι] (M : Monitor ι σ γ κ ρ) (s : State ι σ γ κ ρ) : Prop :=
  ∀ a, a.isSpurious = false → M.step s a = none

end Monitor
end Celestite.Concurrency
