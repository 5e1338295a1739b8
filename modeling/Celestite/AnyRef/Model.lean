import Celestite.Concurrency.Lts
import Mathlib.Data.Nat.Notation
import Mathlib.Logic.Function.Basic

/-!
# References without a static type

`clst::AnyRef`, and code that passes references on through it, in one library or from one to another.
-/

namespace Celestite
open Concurrency

/-- `volatile` is left out: such an object does not convert to the pointer that an `AnyRef` keeps. -/
structure CppType (N : Type) where
  name : N
  const : Bool := false
  deriving DecidableEq

structure Ref (N A : Type) where
  type : CppType N
  target : A
  deriving DecidableEq

structure AnyRef (A H : Type) where
  data : A
  typePtr : H
  deriving DecidableEq

inductive BadAnyRefCast where
  | raised
  deriving DecidableEq

def BadAnyRefCast.what : BadAnyRefCast → String
  | raised => "Bad AnyRef cast."

namespace AnyRef
variable {N A H M V : Type} [DecidableEq A] [DecidableEq H]

/-- The constructor, where `anyRefHelper lib T` is the address of `any_ref_helper<T>` in a library. It
stores `&val`, which is the target for the types without a unary `&` of their own; others are left
out. -/
def ofRef (anyRefHelper : M → CppType N → H) (lib : M) (val : Ref N A) : AnyRef A H :=
  ⟨val.target, anyRefHelper lib val.type⟩

def cast (anyRefHelper : M → CppType N → H) (lib : M) (T : CppType N) (x : AnyRef A H) :
    Except BadAnyRefCast (Ref N A) :=
  if x.typePtr = anyRefHelper lib T then .ok ⟨T, x.data⟩ else .error .raised

/-- The pointer that is returned, or none for the null pointer. -/
def castIf (anyRefHelper : M → CppType N → H) (lib : M) (T : CppType N) (x : AnyRef A H) : Option (Ref N A) :=
  if x.typePtr = anyRefHelper lib T then some ⟨T, x.data⟩ else none

structure Object (N V : Type) where
  type : CppType N
  value : V
  deriving DecidableEq

/-- The objects, and what the code has of references to them. -/
structure State (N A H V : Type) where
  objects : A → Option (Object N V) := fun _ => none
  refs : List (Ref N A) := []
  anys : List (AnyRef A H) := []

inductive Act (N A M V : Type) where
  | construct (place : A) (type : CppType N) (value : V)
  /-- A `const T&` is bound to what a `T&` refers to. -/
  | addConst (i : ℕ)
  | assign (i : ℕ) (value : V)
  | wrap (lib : M) (i : ℕ)
  | copy (j : ℕ)
  | cast (lib : M) (T : CppType N) (j : ℕ)
  | castIf (lib : M) (T : CppType N) (j : ℕ)

namespace State
variable (s : State N A H V)

def put (place : A) (o : Object N V) : State N A H V :=
  { s with objects := Function.update s.objects place (some o) }

def withRef (r : Ref N A) : State N A H V := { s with refs := r :: s.refs }

def withAny (x : AnyRef A H) : State N A H V := { s with anys := x :: s.anys }

def construct (place : A) (type : CppType N) (value : V) : Option (State N A H V) :=
  if (s.objects place).isNone then some ((s.put place ⟨type, value⟩).withRef ⟨type, place⟩) else none

/-- Through a reference to `const` this does not compile. -/
def assign (i : ℕ) (value : V) : Option (State N A H V) := do
  let r ← s.refs[i]?
  if r.type.const then none
  else do
    let o ← s.objects r.target
    return s.put r.target { o with value := value }

/-- A cast that throws is caught. -/
def cast (anyRefHelper : M → CppType N → H) (lib : M) (T : CppType N) (x : AnyRef A H) : State N A H V :=
  match x.cast anyRefHelper lib T with
  | .ok r => s.withRef r
  | .error _ => s

def castIf (anyRefHelper : M → CppType N → H) (lib : M) (T : CppType N) (x : AnyRef A H) : State N A H V :=
  ((x.castIf anyRefHelper lib T).map s.withRef).getD s

end State

def lts (N A V : Type) [DecidableEq A] (anyRefHelper : M → CppType N → H) : Lts (State N A H V) (Act N A M V) where
  init := {}
  step s
    | .construct place type value => s.construct place type value
    | .addConst i => s.refs[i]?.map fun r => s.withRef { r with type := { r.type with const := true } }
    | .assign i value => s.assign i value
    | .wrap lib i => s.refs[i]?.map fun r => s.withAny (ofRef anyRefHelper lib r)
    | .copy j => s.anys[j]?.map s.withAny
    | .cast lib T j => s.anys[j]?.map (s.cast anyRefHelper lib T)
    | .castIf lib T j => s.anys[j]?.map (s.castIf anyRefHelper lib T)

end AnyRef
end Celestite
