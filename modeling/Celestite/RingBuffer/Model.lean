import Mathlib.Algebra.Order.Ring.Nat
import Mathlib.Data.List.Basic
import Mathlib.Data.List.Induction
import Mathlib.Logic.Function.Basic
import Celestite.Sequential.Program

/-!
# The ring buffer

`clst::RingBuffer`: a block of `max_` slots of which `count_` from `first_` on, around the end,
hold elements. All index arithmetic is that of a 64-bit `size_type`.
-/

namespace Celestite

/-- The value of an expression of type `size_type`. -/
def wrap (n : ℕ) : ℕ := n % 2 ^ 64

theorem wrap_of_lt {n : ℕ} (h : n < 2 ^ 64) : wrap n = n := Nat.mod_eq_of_lt h

def pred (n : ℕ) : ℕ := wrap (n + (2 ^ 64 - 1))

theorem pred_of_pos {n : ℕ} (pos : 0 < n) (h : n < 2 ^ 64) : pred n = n - 1 := by
  unfold pred wrap
  omega

/-- The block of storage, where a slot without an element is raw, and the other fields. -/
structure RingBuffer (T : Type) where
  slots : ℕ → Option T := fun _ => none
  first : ℕ := 0
  count : ℕ := 0
  max : ℕ

namespace RingBuffer
variable {T : Type}

inductive Error where
  /-- `std::out_of_range` -/
  | outOfRange
  /-- What the constructor of an element throws. -/
  | element
  deriving DecidableEq

inductive Fault where
  | divisionByZero
  | outsideBlock
  /-- An element is constructed where there is one. -/
  | overwritten
  /-- What is destroyed or used is no element. -/
  | notConstructed
  deriving DecidableEq

abbrev Op (T α : Type) := Program (RingBuffer T) Error Fault α

/-- What becomes of a constructor's arguments at the time it runs. -/
inductive Made (T : Type) where
  | value (v : T)
  | threw
  | dangling

/-- An argument may refer to elements of the buffer. -/
abbrev Arg (T : Type) := (ℕ → Option T) → Made T

/-- An argument outside the buffer whose construction does not throw. -/
def plain (v : T) : Arg T := fun _ => .value v

/-- `n % max_` -/
def modMax (n : ℕ) : Op T ℕ := do
  let rb ← Program.read id
  Program.require (rb.max ≠ 0) .divisionByZero
  pure (n % rb.max)

/-- `alloc_traits::construct(alloc_(), data_() + i, args...)` -/
def construct (i : ℕ) (arg : Arg T) : Op T Unit := do
  let rb ← Program.read id
  Program.require (i < rb.max) .outsideBlock
  Program.require ((rb.slots i).isNone = true) .overwritten
  match arg rb.slots with
  | .value v => Program.update fun rb => { rb with slots := Function.update rb.slots i (some v) }
  | .threw => Program.throw .element
  | .dangling => Program.require False .notConstructed

/-- `alloc_traits::destroy(alloc_(), data_() + i)` -/
def destroy (i : ℕ) : Op T Unit := do
  let rb ← Program.read id
  Program.require (i < rb.max) .outsideBlock
  Program.require ((rb.slots i).isSome = true) .notConstructed
  Program.update fun rb => { rb with slots := Function.update rb.slots i none }

def incrementCount : Op T Unit := Program.update fun rb => { rb with count := wrap (rb.count + 1) }

def decrementCount : Op T Unit := Program.update fun rb => { rb with count := pred rb.count }

/-- The slot of the element after the last one. -/
def endSlot : Op T ℕ := do
  let rb ← Program.read id
  modMax (wrap (rb.first + rb.count))

def pop : Op T Unit := do
  let rb ← Program.read id
  destroy rb.first
  let first ← modMax (wrap (rb.first + 1))
  Program.update fun rb => { rb with first := first }
  decrementCount

def popBack : Op T Unit := do
  let rb ← Program.read id
  let last ← modMax (pred (wrap (rb.first + rb.count)))
  destroy last
  decrementCount

def pushImpl (value : Arg T) : Op T Bool := do
  let rb ← Program.read id
  if rb.count = rb.max then
    pure false
  else
    let i ← endSlot
    construct i value
    incrementCount
    pure true

/-- `if (count_ == max_) pop();` -/
def popIfFull : Op T Unit := do
  let rb ← Program.read id
  if rb.count = rb.max then pop

def pushOverwriteImpl (value : Arg T) : Op T Unit := do
  popIfFull
  let i ← endSlot
  construct i value
  incrementCount

/-- Both overloads, by copy and by move. -/
def push (value : Arg T) : Op T Bool := pushImpl value

def pushOverwrite (value : Arg T) : Op T Unit := pushOverwriteImpl value

/-- A reference is the slot it refers to. -/
def emplace (args : Arg T) : Op T ℕ := do
  popIfFull
  let ptr ← endSlot
  construct ptr args
  incrementCount
  pure ptr

/-- `operator[]` -/
def get (i : ℕ) : Op T ℕ := do
  let rb ← Program.read id
  modMax (wrap (rb.first + i))

/-- `at` -/
def getAt (i : ℕ) : Op T ℕ := do
  let rb ← Program.read id
  if i ≥ rb.count then Program.throw .outOfRange else get i

def front : Op T ℕ := get 0

def back : Op T ℕ := do
  let rb ← Program.read id
  get (pred rb.count)

def size : Op T ℕ := Program.read (·.count)

def empty : Op T Bool := Program.read fun rb => decide (rb.count = 0)

/-- `for (auto i=first_; i<first_ + count_; ++i)`, from `i` on. The recursion is on `count_`, which
every iteration lowers. -/
def clearLoop : ℕ → ℕ → Op T Unit
  | 0, _ => pure ()
  | n + 1, i => do
    let rb ← Program.read id
    if i < wrap (rb.first + rb.count) then
      let slot ← modMax i
      destroy slot
      decrementCount
      clearLoop n (wrap (i + 1))

def clear : Op T Unit := do
  let rb ← Program.read id
  clearLoop rb.count rb.first

end RingBuffer
end Celestite
