import Celestite.ArcString.Errors

/-!
# Errors with a code

`clst::SystemError` objects as values: `RuntimeError`s that carry a `std::error_code`, whose message is
taken before the string is made from it.
-/

namespace Celestite
open Concurrency

/-- `std::error_code`, where `K` are the categories. -/
structure ErrorCode (K : Type*) where
  value : ℤ
  category : K
  deriving DecidableEq

/-- What the library knows of categories. -/
structure Categories (K : Type*) where
  system : K
  generic : K
  message : ErrorCode K → String

namespace SystemError
open ArcString (State Allowed)

inductive Op (H K : Type*) where
  /-- `SystemError(int)` -/
  | ofSystem (code : ℤ)
  /-- `SystemError(int, const std::error_category&)` -/
  | ofCategory (code : ℤ) (ecat : K)
  /-- `SystemError(std::errc)` -/
  | ofErrc (ec : ℤ)
  | copy (rhs : H)
  | copyAssign (rhs : H)
  | destroy

structure Call (H K : Type*) where
  op : Op H K
  this : H

section
variable {H K : Type*} [DecidableEq H] (cats : Categories K)

/-- `throw_last()`, which throws the object that this constructs. -/
def throwLast (errno : ℤ) : Op H K := .ofCategory errno cats.system

/-- The code that the object has after the operation, where `ec` are those of the others. -/
def Op.code (ec : H → Option (ErrorCode K)) : Op H K → Option (ErrorCode K)
  | ofSystem code => some ⟨code, cats.system⟩
  | ofCategory code ecat => some ⟨code, ecat⟩
  | ofErrc code => some ⟨code, cats.generic⟩
  | copy rhs | copyAssign rhs => ec rhs
  | destroy => none

/-- What becomes of the base, which is constructed, copied and destroyed with the object. -/
def Op.base : Op H K → ArcString.Op H
  | ofSystem code => .create (cats.message ⟨code, cats.system⟩)
  | ofCategory code ecat => .create (cats.message ⟨code, ecat⟩)
  | ofErrc code => .create (cats.message ⟨code, cats.generic⟩)
  | copy rhs => .copy rhs
  | copyAssign rhs => .copyAssign rhs
  | destroy => .destroy

def Call.base (c : Call H K) : ArcString.Call H := ⟨c.op.base cats, c.this⟩

end

/-- The bases of the objects, and `ec_` of each. -/
structure Objects (H K : Type*) where
  base : State H Unit := {}
  ec : H → Option (ErrorCode K) := fun _ => none

section
variable {H K : Type*} [DecidableEq H] (cats : Categories K)

def perform (x : Objects H K) (c : Call H K) : Option (Objects H K) :=
  (ArcString.perform x.base (c.base cats)).map fun base =>
    { base := base, ec := Function.update x.ec c.this (c.op.code cats x.ec) }

def lts : Lts (Objects H K) (Call H K) where
  init := {}
  step := perform cats

/-- `what()` -/
def Objects.what (x : Objects H K) (h : H) : Option String := x.base.what h

/-- `get_error()` -/
def Objects.getError (x : Objects H K) (h : H) : Option (ErrorCode K) := x.ec h

def Permitted (x : Objects H K) (c : Call H K) : Prop := Allowed x.base (c.base cats) ∧ ¬(c.base cats).SelfAssigns

end

instance {H K : Type*} [DecidableEq H] [Fintype H] (cats : Categories K) (x : Objects H K) (c : Call H K) :
    Decidable (Permitted cats x c) := inferInstanceAs (Decidable (_ ∧ _))

section
variable {H K : Type*} [DecidableEq H] {cats : Categories K} {x x' : Objects H K} {c : Call H K} {h : H}

theorem intended_base (ec : H → Option (ErrorCode K)) (c : Call H K) :
    ArcString.intended (fun h => (ec h).map cats.message) (c.base cats) =
      fun h => (Function.update ec c.this (c.op.code cats ec) h).map cats.message := by
  funext h
  unfold ArcString.intended
  by_cases this : h = c.this
  · subst this
    rw [Call.base, Function.update_self, Function.update_self]
    cases c.op <;> rfl
  · rw [Call.base, Function.update_of_ne this, Function.update_of_ne this]

/-- Each object has the message of its code. -/
abbrev Consistent [Fintype H] (cats : Categories K) (x : Objects H K) : Prop :=
  ArcString.Kept x.base fun h => (x.ec h).map cats.message

variable [Fintype H]

theorem consistent_step (before : Consistent cats x) (permitted : Permitted cats x c) :
    ∃ x', perform cats x c = some x' ∧ Consistent cats x' ∧
      x'.ec = Function.update x.ec c.this (c.op.code cats x.ec) := by
  obtain ⟨s', performed, -, after⟩ := before.step permitted.1 permitted.2
  refine ⟨⟨s', Function.update x.ec c.this (c.op.code cats x.ec)⟩, ?_, ?_, rfl⟩
  · rw [perform, performed, Option.map_some]
  · rw [intended_base x.ec c] at after
    exact after

theorem consistent_reached (reached : (lts cats).Reaches (Permitted cats) x) : Consistent cats x := by
  apply reached.invariant
  · exact ⟨ArcString.init_sound, rfl, nofun, fun h => rfl⟩
  · intro x c x' _ before permitted taken
    obtain ⟨x'', performed, after, -⟩ := consistent_step before permitted
    obtain rfl := Option.some.inj (performed.symm.trans taken)
    exact after

theorem Consistent.message (consistent : Consistent cats x) (h : H) : x.what h = (x.getError h).map cats.message :=
  consistent.what h

/-- In every run of constructions, copies, assignments other than to itself and destructions each object has a code and the
message of this code; a copy has both from its source, and no call changes either of another object. -/
theorem message_of_code (reached : (lts cats).Reaches (Permitted cats) x) :
    (∀ h, x.base.alive h = true → ∃ code, x.getError h = some code ∧ x.what h = some (cats.message code)) ∧
    ∀ c, Permitted cats x c → ∃ x', perform cats x c = some x' ∧
      x'.getError c.this = c.op.code cats x.ec ∧ x'.what c.this = (c.op.code cats x.ec).map cats.message ∧
      ∀ h, h ≠ c.this → x'.getError h = x.getError h ∧ x'.what h = x.what h := by
  have consistent := consistent_reached reached
  constructor
  · intro h living
    have there := consistent.alive_iff.mp living
    cases has : x.getError h with
    | none => exact absurd (congrArg (Option.map cats.message) has) there
    | some code => exact ⟨code, rfl, (consistent.message h).trans (congrArg (Option.map cats.message) has)⟩
  · intro c permitted
    obtain ⟨x', performed, after, codes⟩ := consistent_step consistent permitted
    have this : x'.getError c.this = c.op.code cats x.ec := by
      rw [Objects.getError, codes, Function.update_self]
    refine ⟨x', performed, this, ?_, fun h other => ?_⟩
    · rw [after.message, this]
    · have same : x'.getError h = x.getError h := by
        rw [Objects.getError, codes, Function.update_of_ne other]
        rfl
      refine ⟨same, ?_⟩
      rw [after.message, consistent.message, same]

end

/-- Two categories that name a code by its number. -/
def twoCategories : Categories Bool where
  system := true
  generic := false
  message code := if code.category then "system " ++ toString code.value else "generic " ++ toString code.value

theorem message_of_code_assigned : ∃ x : Objects (Fin 2) Bool, (lts twoCategories).Reaches (Permitted twoCategories) x ∧
    x.getError 1 = some ⟨2, true⟩ ∧ x.what 1 = some "system 2" := by
  obtain ⟨x, ran, code, living⟩ : ∃ x, (lts twoCategories).run (Permitted twoCategories) (lts twoCategories).init
      [⟨throwLast twoCategories 2, (0 : Fin 2)⟩, ⟨.ofErrc 5, 1⟩, ⟨.copyAssign 0, 1⟩, ⟨.destroy, 0⟩] = some x ∧
      x.getError 1 = some ⟨2, true⟩ ∧ x.base.alive 1 = true := ⟨_, rfl, rfl, rfl⟩
  have reached := Lts.run_reaches _ .init ran
  obtain ⟨code', has, what⟩ := (message_of_code reached).1 1 living
  obtain rfl := Option.some.inj (code.symm.trans has)
  exact ⟨x, reached, code, what⟩

end SystemError
end Celestite
