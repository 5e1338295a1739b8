import Mathlib.Algebra.Order.Ring.Int
import Mathlib.Data.Fintype.Card
import Mathlib.Logic.Function.Basic
import Celestite.Concurrency.Lts

/-!
# The reference-counted string

`clst::detail::ArcString`: threads construct, copy, move, assign and destroy handles. Each pointer
store, `fetch_add`, `fetch_sub` and `delete` is a step of its own.
-/

namespace Celestite

/-- The block of storage a handle points to. -/
structure ArcStringRep where
  str : String
  refCnt : ℤ := 1
  deriving DecidableEq

namespace ArcString
open Concurrency

inductive Op (H : Type*) where
  | create (str : String)
  | copy (rhs : H)
  | move (rhs : H)
  | copyAssign (rhs : H)
  | moveAssign (rhs : H)
  | destroy
  deriving DecidableEq

/-- An operation on `*this`. -/
structure Call (H : Type*) where
  op : Op H
  this : H
  deriving DecidableEq

/-- What a call does next. -/
inductive Point where
  /-- `if (rep_ && rep_->ref_cnt.fetch_sub(1) == 1)` -/
  | lower
  /-- `delete rep_;` -/
  | delete
  /-- `rep_ = nullptr;` at the end of `release` -/
  | clear
  /-- `rep_(new ArcStringRep{str})` or `rep_ = rhs.rep_;` -/
  | store
  /-- `rep_->ref_cnt.fetch_add(1);` -/
  | raise
  /-- `rhs.rep_ = nullptr;` -/
  | vacate
  deriving DecidableEq

/-- What threads did to the counts, for the statements. -/
inductive Event (I : Type*) where
  /-- A `fetch_sub` and what it returned. -/
  | lowered (t : I) (b : ℕ) (old : ℤ)
  | deleted (t : I) (b : ℕ)
  deriving DecidableEq

structure State (H I : Type*) where
  /-- `rep_` of each handle; no handle is null before its construction. -/
  rep : H → Option ℕ := fun _ => none
  alive : H → Bool := fun _ => false
  /-- The blocks, numbered by allocation, until they are deleted. -/
  storage : ℕ → Option ArcStringRep := fun _ => none
  allocated : ℕ := 0
  running : I → Option (Call H × Point) := fun _ => none
  log : List (Event I) := []

inductive Act (H I : Type*) where
  | start (t : I) (c : Call H)
  | step (t : I)

namespace Op
variable {H : Type*}

def rhs : Op H → Option H
  | copy h | move h | copyAssign h | moveAssign h => some h
  | create _ | destroy => none

def moves : Op H → Bool
  | move _ | moveAssign _ => true
  | _ => false

def copies : Op H → Bool
  | copy _ | copyAssign _ => true
  | _ => false

def constructs : Op H → Bool
  | create _ | copy _ | move _ => true
  | _ => false

/-- Constructors store, assignments and the destructor `release` first. -/
def first (op : Op H) : Point := if op.constructs then .store else .lower

end Op

section
variable {H I : Type*} [DecidableEq H] [DecidableEq I]

namespace State
variable (s : State H I) (t : I) (c : Call H)

def goto (p : Point) : State H I := { s with running := Function.update s.running t (some (c, p)) }

def finish : State H I :=
  { s with
    running := Function.update s.running t none
    alive := Function.update s.alive c.this (decide (c.op ≠ .destroy)) }

def setRep (h : H) (v : Option ℕ) : State H I := { s with rep := Function.update s.rep h v }

def setBlock (b : ℕ) (r : Option ArcStringRep) : State H I :=
  { s with storage := Function.update s.storage b r }

def grow : State H I := { s with allocated := s.allocated + 1 }

def note (e : Event I) : State H I := { s with log := s.log ++ [e] }

end State

/-- One step of a call; none where it would use a null pointer or a deleted block. -/
def advance (s : State H I) (t : I) (c : Call H) : Point → Option (State H I)
  | .lower =>
    match s.rep c.this with
    | none => some (s.goto t c .clear)
    | some b => (s.storage b).map fun r =>
      ((s.setBlock b (some { r with refCnt := r.refCnt - 1 })).note (.lowered t b r.refCnt)).goto t c
        (if r.refCnt = 1 then .delete else .clear)
  | .delete =>
    match s.rep c.this with
    | none => some (s.goto t c .clear)
    | some b => (s.storage b).map fun _ => ((s.setBlock b none).note (.deleted t b)).goto t c .clear
  | .clear =>
    match c.op with
    | .copyAssign _ | .moveAssign _ => some ((s.setRep c.this none).goto t c .store)
    | _ => some ((s.setRep c.this none).finish t c)
  | .store =>
    match c.op with
    | .create str =>
      some (((s.setBlock s.allocated (some { str })).setRep c.this (some s.allocated)).grow.finish t c)
    | .copy rhs | .copyAssign rhs => some ((s.setRep c.this (s.rep rhs)).goto t c .raise)
    | .move rhs | .moveAssign rhs => some ((s.setRep c.this (s.rep rhs)).goto t c .vacate)
    | .destroy => none
  | .raise =>
    (s.rep c.this).bind fun b => (s.storage b).map fun r =>
      (s.setBlock b (some { r with refCnt := r.refCnt + 1 })).finish t c
  | .vacate => c.op.rhs.map fun rhs => (s.setRep rhs none).finish t c

def lts (H I : Type*) [DecidableEq H] [DecidableEq I] : Lts (State H I) (Act H I) where
  init := {}
  step s
    | .start t c => if s.running t = none then some (s.goto t c c.op.first) else none
    | .step t => (s.running t).bind fun (c, p) => advance s t c p

def Call.Uses (c : Call H) (h : H) : Prop := c.this = h ∨ c.op.rhs = some h

def Call.Modifies (c : Call H) (h : H) : Prop := c.this = h ∨ c.op.moves = true ∧ c.op.rhs = some h

/-- No handle that one call writes is used by the other. -/
def Call.Apart (c d : Call H) : Prop := ∀ h, (c.Modifies h → ¬d.Uses h) ∧ (d.Modifies h → ¬c.Uses h)

/-- The calls a thread may make: a constructor of a new handle, anything else of a living one,
from another living handle, which is not empty if it is copied, and none that another thread is
using. -/
def Lawful (s : State H I) : Act H I → Prop
  | .start _ c =>
    s.alive c.this = !c.op.constructs ∧
    (∀ h, c.op.rhs = some h → h ≠ c.this ∧ s.alive h = true ∧ (c.op.copies = true → s.rep h ≠ none)) ∧
    ∀ u d p, s.running u = some (d, p) → c.Apart d
  | .step _ => True

end
end ArcString
end Celestite
