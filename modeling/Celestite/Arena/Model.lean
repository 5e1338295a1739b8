import Mathlib.Algebra.Order.Ring.Nat

/-!
# The arena

`clst::Arena`, with pointers and `std::ptrdiff_t` as 64-bit words.
-/

namespace Celestite

structure Arena where
  cur : BitVec 64
  end_ : BitVec 64
  deriving DecidableEq

namespace Arena

/-- `Arena(void* begin, std::ptrdiff_t length)` -/
def ofLength (begin_ length : BitVec 64) : Arena := ⟨begin_, begin_ + length⟩

/-- `Arena(void* begin, void* end)` -/
def ofRange (begin_ end_ : BitVec 64) : Arena := ⟨begin_, end_⟩

def pad (a : Arena) (alignment : BitVec 64) : BitVec 64 := -a.cur &&& (alignment - 1)

/-- `none` for the null pointer. -/
def allocate (a : Arena) (size alignment : BitVec 64) : Option (BitVec 64) × Arena :=
  if (a.end_ - a.cur).slt (a.pad alignment + size) then (none, a)
  else
    let p := a.cur + a.pad alignment
    (some p, { a with cur := p + size })

def allocateT (a : Arena) (sizeof alignof : BitVec 64) : Option (BitVec 64) × Arena :=
  a.allocate sizeof alignof

def capacity (a : Arena) : ℤ := (a.end_ - a.cur).toInt

example : ((ofLength 4097 32).allocate 4 4).1 = some 4100 := by decide

inductive Call where
  | typed (sizeof alignof : BitVec 64)
  | sized (size alignment : BitVec 64)

namespace Call

def size : Call → BitVec 64
  | typed sizeof _ => sizeof
  | sized size _ => size

def alignment : Call → BitVec 64
  | typed _ alignof => alignof
  | sized _ alignment => alignment

def nonempty : Call → Prop
  | typed sizeof _ => sizeof ≠ 0
  | sized _ _ => True

/-- The requests that callers may make. -/
structure Valid (c : Call) : Prop where
  power : ∃ k, c.alignment.toNat = 2 ^ k
  small : c.size.toNat + c.alignment.toNat < 2 ^ 63
  object : c.nonempty

end Call

def perform (a : Arena) : Call → Option (BitVec 64) × Arena
  | .typed sizeof alignof => a.allocateT sizeof alignof
  | .sized size alignment => a.allocate size alignment

/-- A call, its result and the arena before and after it. -/
structure Outcome where
  call : Call
  result : Option (BitVec 64)
  before : Arena
  after : Arena

def serve (a : Arena) : List Call → List Outcome
  | [] => []
  | c :: cs => ⟨c, (a.perform c).1, a, (a.perform c).2⟩ :: (a.perform c).2.serve cs

end Arena
end Celestite
