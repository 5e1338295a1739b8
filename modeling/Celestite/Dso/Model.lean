import Celestite.Concurrency.Lts
import Celestite.Sequential.Ownership

/-!
# Dynamic libraries

`clst::Dso`: a population of objects that own what `dlopen` returned. The log is what `dlopen` and
`dlclose` were called for.
-/

namespace Celestite
open Concurrency Celestite.Sequential

structure Dso (H : Type) where
  handle : Option H := none

namespace Dso
variable {O H : Type}

def isOpen (d : Dso H) : Bool := d.handle.isSome

/-- What `close` returns and passes to `dlclose`, which succeeds. -/
def close (d : Dso H) : Bool × List (Use H) :=
  match d.handle with
  | none => (true, [])
  | some handle => (true, [.released handle])

def loads (loaded : Option H) : List (Use H) := loaded.toList.map .acquired

structure State (O H : Type) where
  objects : O → Option (Dso H) := fun _ => none
  log : List (Use H) := []

inductive Act (O H : Type) where
  /-- `Dso()` -/
  | construct (this : O)
  /-- `Dso(name)` -/
  | load (this : O) (loaded : Option H)
  | open_ (this : O) (loaded : Option H)
  | close (this : O)
  /-- `Dso(Dso&& rhs)` -/
  | moveConstruct (this rhs : O)
  /-- `operator=(Dso&& rhs)` -/
  | moveAssign (this rhs : O)
  | destroy (this : O)

namespace State
variable [DecidableEq O] (s : State O H) (this rhs : O)

def put (x : Option (Dso H)) : State O H := { s with objects := Function.update s.objects this x }

def note (uses : List (Use H)) : State O H := { s with log := s.log ++ uses }

def construct : Option (State O H) :=
  if (s.objects this).isNone then some (s.put this (some {})) else none

def load (loaded : Option H) : Option (State O H) :=
  if (s.objects this).isNone then some ((s.put this (some { handle := loaded })).note (loads loaded)) else none

def open_ (loaded : Option H) : Option (Bool × State O H) := do
  let d ← s.objects this
  if d.handle.isSome then return (false, s)
  return (loaded.isSome, (s.put this (some { d with handle := loaded })).note (loads loaded))

def close : Option (Bool × State O H) := do
  let d ← s.objects this
  return (d.close.1, s.note d.close.2)

/-- `handle_ = rhs.handle_; rhs.handle_ = nullptr;` -/
def take : Option (State O H) := do
  let source ← s.objects rhs
  let s := s.put this (some { handle := source.handle })
  let source ← s.objects rhs
  return s.put rhs (some { source with handle := none })

def moveConstruct : Option (State O H) := if (s.objects this).isNone then s.take this rhs else none

def moveAssign : Option (State O H) := do
  let closed ← s.close this
  closed.2.take this rhs

def destroy : Option (State O H) := do
  let closed ← s.close this
  return closed.2.put this none

end State

def lts (O H : Type) [DecidableEq O] : Lts (State O H) (Act O H) where
  init := {}
  step s
    | .construct this => s.construct this
    | .load this loaded => s.load this loaded
    | .open_ this loaded => (s.open_ this loaded).map Prod.snd
    | .close this => (s.close this).map Prod.snd
    | .moveConstruct this rhs => s.moveConstruct this rhs
    | .moveAssign this rhs => s.moveAssign this rhs
    | .destroy this => s.destroy this

end Dso
end Celestite
