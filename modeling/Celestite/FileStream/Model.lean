import Mathlib.Algebra.Order.Ring.Int
import Celestite.Concurrency.Lts
import Celestite.Sequential.Ownership

/-!
# Binary file streams

`clst::BinaryFileStream`: a population of objects that own `FILE` handles. The outcomes of the C
library's calls are given with each `open`.
-/

namespace Celestite
open Concurrency Celestite.Sequential

inductive FileStreamMode where
  | read
  | write
  | append
  | readExtended
  | writeExtended
  | appendExtended
  deriving DecidableEq

/-- `mode == FileStreamMode::Read || mode == FileStreamMode::ReadExtended` -/
def FileStreamMode.measures (mode : FileStreamMode) : Bool := mode == .read || mode == .readExtended

structure BinaryFileStream (K : Type) where
  fp : Option K := none
  fileSize : ℤ := -1

namespace BinaryFileStream
variable {O K : Type}

/-- What the C library does during an `open`. -/
structure Fopen (K : Type) where
  /-- `fopen(filename, mode_str)` -/
  file : Option K
  /-- Whether `fseek64(fp_, 0, SEEK_END)` succeeds. -/
  seeksEnd : Bool
  /-- `ftell64(fp_)` -/
  length : ℤ

def isOpen (f : BinaryFileStream K) : Bool := f.fp.isSome

def getLength (f : BinaryFileStream K) : ℤ := f.fileSize

def open_ (f : BinaryFileStream K) (mode : FileStreamMode) (c : Fopen K) : Bool × BinaryFileStream K :=
  if f.fp.isSome then (false, f)
  else
    match c.file with
    | none => (false, { f with fp := none })
    | some fp =>
      if mode.measures then
        if c.seeksEnd then (decide (¬c.length < 0), { fp := some fp, fileSize := c.length })
        else (false, { f with fp := some fp })
      else (true, { f with fp := some fp })

/-- What `close` returns and leaves, and the handle it passes to `fclose`. -/
def close (f : BinaryFileStream K) : Bool × BinaryFileStream K × List (Use K) :=
  match f.fp with
  | none => (false, f, [])
  | some fp => (true, { fp := none, fileSize := -1 }, [.released fp])

/-- How the handle was opened and the length `ftell64` would report then. -/
structure Opening where
  mode : FileStreamMode
  length : ℤ

structure State (O K : Type) where
  objects : O → Option (BinaryFileStream K) := fun _ => none
  log : List (Use K) := []
  /-- The last `fopen` that returned the handle. -/
  origin : K → Option Opening := fun _ => none

inductive Act (O K : Type) where
  | construct (this : O)
  | open_ (this : O) (mode : FileStreamMode) (c : Fopen K)
  | close (this : O)
  | moveConstruct (this rhs : O)
  | moveAssign (this rhs : O)
  | destroy (this : O)

namespace State
variable [DecidableEq O] [DecidableEq K] (s : State O K) (this rhs : O)

def put (x : Option (BinaryFileStream K)) : State O K :=
  { s with objects := Function.update s.objects this x }

def note (uses : List (Use K)) : State O K := { s with log := s.log ++ uses }

def opened (mode : FileStreamMode) (c : Fopen K) : State O K :=
  { s.note (c.file.toList.map .acquired) with
    origin := fun k => if c.file = some k then some { mode := mode, length := c.length } else s.origin k }

def construct : Option (State O K) :=
  if (s.objects this).isNone then some (s.put this (some {})) else none

def open_ (mode : FileStreamMode) (c : Fopen K) : Option (State O K) := do
  let f ← s.objects this
  let after := s.put this (some (f.open_ mode c).2)
  -- an open stream returns before `fopen`
  return if f.fp.isSome then after else after.opened mode c

def close : Option (State O K) := do
  let f ← s.objects this
  return (s.put this (some f.close.2.1)).note f.close.2.2

/-- `fp_ = rhs.fp_; file_size_ = rhs.file_size_; rhs.fp_ = nullptr;` -/
def take : Option (State O K) := do
  let source ← s.objects rhs
  let s := s.put this (some { fp := source.fp, fileSize := source.fileSize })
  let source ← s.objects rhs
  return s.put rhs (some { source with fp := none })

def moveConstruct : Option (State O K) := if (s.objects this).isNone then s.take this rhs else none

def moveAssign : Option (State O K) := do
  let s ← s.close this
  s.take this rhs

/-- `if (fp_) fclose(fp_);` -/
def destroy : Option (State O K) := do
  let f ← s.objects this
  return (s.put this none).note (f.fp.toList.map .released)

end State

/-- One operation on a population; none where an object is missing or in the way. -/
def lts (O K : Type) [DecidableEq O] [DecidableEq K] : Lts (State O K) (Act O K) where
  init := {}
  step s
    | .construct this => s.construct this
    | .open_ this mode c => s.open_ this mode c
    | .close this => s.close this
    | .moveConstruct this rhs => s.moveConstruct this rhs
    | .moveAssign this rhs => s.moveAssign this rhs
    | .destroy this => s.destroy this

/-- `fopen` returns no handle that is open. -/
def Lawful [DecidableEq K] (s : State O K) : Act O K → Prop
  | .open_ _ _ c => ∀ k ∈ c.file, ¬Live s.log k
  | _ => True

instance [DecidableEq K] (s : State O K) (a : Act O K) : Decidable (Lawful s a) :=
  match a with
  | .open_ _ _ c => inferInstanceAs (Decidable (∀ k ∈ c.file, ¬Live s.log k))
  | .construct _ | .close _ | .moveConstruct _ _ | .moveAssign _ _ | .destroy _ => isTrue trivial

end BinaryFileStream
end Celestite
