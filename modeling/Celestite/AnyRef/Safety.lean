import Celestite.AnyRef.Model

/-!
# What an `AnyRef` does not give away

Neither a wrong type nor a way around `const`, in any library: the helpers of different types are different
variables, and so have different addresses everywhere.
-/

namespace Celestite.AnyRef
open Concurrency

variable {N A H M V : Type} {anyRefHelper : M → CppType N → H} {s s' : State N A H V} {x : AnyRef A H} {r : Ref N A}
  {o : Object N V} {T : CppType N} {a : A} {lib : M}

/-- The code can get at what is there as a `T`. -/
def State.Grants (anyRefHelper : M → CppType N → H) (s : State N A H V) (T : CppType N) (a : A) : Prop :=
  ⟨T, a⟩ ∈ s.refs ∨ ∃ x ∈ s.anys, ∃ lib, x = ofRef anyRefHelper lib ⟨T, a⟩

/-- No two types have a helper at the same address, in whichever libraries. -/
def Distinct (anyRefHelper : M → CppType N → H) : Prop :=
  ∀ lib lib' T T', anyRefHelper lib T = anyRefHelper lib' T' → T = T'

theorem cast_ok (same : x.typePtr = anyRefHelper lib T) : x = ofRef anyRefHelper lib ⟨T, x.data⟩ := by
  rw [ofRef, ← same]

theorem ofRef_grants (distinct : Distinct anyRefHelper) {lib' : M}
    (eq : ofRef anyRefHelper lib r = ofRef anyRefHelper lib' ⟨T, a⟩) : r = ⟨T, a⟩ := by
  obtain ⟨place, helper⟩ := AnyRef.mk.inj eq
  have type := distinct _ _ _ _ helper
  obtain ⟨type', target⟩ := r
  exact congrArg₂ Ref.mk type place

namespace State

theorem grants_withRef : (s.withRef r).Grants anyRefHelper T a ↔ ⟨T, a⟩ = r ∨ s.Grants anyRefHelper T a := by
  simp only [Grants, withRef, List.mem_cons, or_assoc]

theorem grants_withAny : (s.withAny x).Grants anyRefHelper T a ↔
    (∃ lib, x = ofRef anyRefHelper lib ⟨T, a⟩) ∨ s.Grants anyRefHelper T a := by
  simp only [Grants, withAny, List.mem_cons, exists_eq_or_imp]
  exact or_left_comm

end State

section
variable [DecidableEq H]

theorem cast_ok_iff : x.cast anyRefHelper lib T = .ok r ↔ x.castIf anyRefHelper lib T = some r := by
  unfold cast castIf
  split <;> simp

theorem castIf_some (done : x.castIf anyRefHelper lib T = some r) : x = ofRef anyRefHelper lib r ∧ r.type = T := by
  unfold castIf at done
  split at done
  · rename_i same
    obtain rfl := Option.some.inj done
    exact ⟨cast_ok same, rfl⟩
  · contradiction

theorem castIf_ofRef : (ofRef anyRefHelper lib r).castIf anyRefHelper lib r.type = some r := if_pos rfl

theorem State.cast_eq_castIf : s.cast anyRefHelper lib T x = s.castIf anyRefHelper lib T x := by
  unfold State.cast State.castIf AnyRef.cast AnyRef.castIf
  by_cases same : x.typePtr = anyRefHelper lib T
  · rw [if_pos same, if_pos same]
    rfl
  · rw [if_neg same, if_neg same]
    rfl

theorem castIf_anys : (s.castIf anyRefHelper lib T x).anys = s.anys := by
  unfold State.castIf
  cases x.castIf anyRefHelper lib T <;> rfl

end

/-! ### What a step does -/

section
variable [DecidableEq A]

/-- What a step does to the objects, and what the code can get at afterwards. -/
inductive Effect (anyRefHelper : M → CppType N → H) (s s' : State N A H V) : Prop where
  | constructed {place : A} {o : Object N V} (free : s.objects place = none)
      (objects : s'.objects = Function.update s.objects place (some o))
      (grants : ∀ T a, s'.Grants anyRefHelper T a → T = o.type ∧ a = place ∨ s.Grants anyRefHelper T a)
  | shared (objects : s'.objects = s.objects)
      (grants : ∀ T a, s'.Grants anyRefHelper T a → ∃ T', s.Grants anyRefHelper T' a ∧ T'.name = T.name ∧
        (T'.const = true → T.const = true))
  | assigned {T : CppType N} {a : A} {o o' : Object N V} (granted : s.Grants anyRefHelper T a)
      (mutable : T.const = false) (there : s.objects a = some o) (type : o'.type = o.type)
      (objects : s'.objects = Function.update s.objects a (some o'))
      (grants : ∀ T a, s'.Grants anyRefHelper T a → s.Grants anyRefHelper T a)

namespace Effect

theorem none : Effect anyRefHelper s s := .shared rfl fun T _ granted => ⟨T, granted, rfl, id⟩

theorem withRef (known : s.Grants anyRefHelper T r.target) (name : T.name = r.type.name)
    (const : T.const = true → r.type.const = true) : Effect anyRefHelper s (s.withRef r) := by
  refine .shared rfl fun T' a granted => ?_
  rcases State.grants_withRef.mp granted with rfl | before
  · exact ⟨T, known, name, const⟩
  · exact ⟨T', before, rfl, id⟩

theorem withAny (known : ∀ T a lib, x = ofRef anyRefHelper lib ⟨T, a⟩ → s.Grants anyRefHelper T a) :
    Effect anyRefHelper s (s.withAny x) := by
  refine .shared rfl fun T a granted => ⟨T, ?_, rfl, id⟩
  rcases State.grants_withAny.mp granted with ⟨lib, rfl⟩ | before
  · exact known T a lib rfl
  · exact before

end Effect

theorem construct_some {place : A} {value : V} (taken : s.construct place T value = some s') :
    s.objects place = none ∧ s' = (s.put place ⟨T, value⟩).withRef ⟨T, place⟩ := by
  unfold State.construct at taken
  split at taken
  · rename_i free
    exact ⟨Option.isNone_iff_eq_none.mp free, (Option.some.inj taken).symm⟩
  · contradiction

theorem assign_some {i : ℕ} {value : V} (taken : s.assign i value = some s') :
    ∃ r o, s.refs[i]? = some r ∧ r.type.const = false ∧ s.objects r.target = some o ∧
      s' = s.put r.target { o with value := value } := by
  obtain ⟨r, there, rest⟩ := Option.bind_eq_some_iff.mp taken
  split at rest
  · contradiction
  · rename_i mutable
    obtain ⟨o, object, done⟩ := Option.bind_eq_some_iff.mp rest
    exact ⟨r, o, there, Bool.eq_false_iff.mpr mutable, object, (Option.some.inj done).symm⟩

end

section
variable [DecidableEq A] [DecidableEq H]

theorem castIf_effect (there : x ∈ s.anys) : Effect anyRefHelper s (s.castIf anyRefHelper lib T x) := by
  unfold State.castIf
  cases done : x.castIf anyRefHelper lib T with
  | none => exact .none
  | some r =>
    obtain ⟨eq, -⟩ := castIf_some done
    exact .withRef (.inr ⟨x, there, lib, eq⟩) rfl id

theorem step_effect (distinct : Distinct anyRefHelper) {act : Act N A M V}
    (taken : (lts N A V anyRefHelper).step s act = some s') : Effect anyRefHelper s s' := by
  cases act with
  | construct place type value =>
    obtain ⟨free, rfl⟩ := construct_some taken
    refine .constructed free rfl fun T a granted => ?_
    exact (State.grants_withRef.mp granted).imp_left Ref.mk.inj
  | addConst i =>
    obtain ⟨r, there, rfl⟩ := Option.map_eq_some_iff.mp taken
    exact .withRef (.inl (List.mem_of_getElem? there)) rfl fun _ => rfl
  | assign i value =>
    obtain ⟨r, o, there, mutable, object, rfl⟩ := assign_some taken
    have type : ({ o with value := value } : Object N V).type = o.type := rfl
    exact .assigned (.inl (List.mem_of_getElem? there)) mutable object type rfl fun _ _ => id
  | wrap lib i =>
    obtain ⟨r, there, rfl⟩ := Option.map_eq_some_iff.mp taken
    refine .withAny fun T a lib' eq => .inl ?_
    rw [← ofRef_grants distinct eq]
    exact List.mem_of_getElem? there
  | copy j =>
    obtain ⟨x, there, rfl⟩ := Option.map_eq_some_iff.mp taken
    exact .withAny fun T a lib eq => .inr ⟨x, List.mem_of_getElem? there, lib, eq⟩
  | cast lib T j =>
    obtain ⟨x, there, rfl⟩ := Option.map_eq_some_iff.mp taken
    rw [State.cast_eq_castIf]
    exact castIf_effect (List.mem_of_getElem? there)
  | castIf lib T j =>
    obtain ⟨x, there, rfl⟩ := Option.map_eq_some_iff.mp taken
    exact castIf_effect (List.mem_of_getElem? there)

theorem step_anys {act : Act N A M V} (taken : (lts N A V anyRefHelper).step s act = some s') :
    ∀ x ∈ s'.anys, x ∈ s.anys ∨ ∃ lib r, x = ofRef anyRefHelper lib r := by
  intro x member
  cases act with
  | construct place type value =>
    obtain ⟨-, rfl⟩ := construct_some taken
    exact .inl member
  | addConst i =>
    obtain ⟨r, -, rfl⟩ := Option.map_eq_some_iff.mp taken
    exact .inl member
  | assign i value =>
    obtain ⟨r, o, -, -, -, rfl⟩ := assign_some taken
    exact .inl member
  | wrap lib i =>
    obtain ⟨r, -, rfl⟩ := Option.map_eq_some_iff.mp taken
    rcases List.mem_cons.mp member with rfl | before
    · exact .inr ⟨lib, r, rfl⟩
    · exact .inl before
  | copy j =>
    obtain ⟨x', there, rfl⟩ := Option.map_eq_some_iff.mp taken
    rcases List.mem_cons.mp member with rfl | before
    · exact .inl (List.mem_of_getElem? there)
    · exact .inl before
  | cast lib T j =>
    obtain ⟨x', -, rfl⟩ := Option.map_eq_some_iff.mp taken
    rw [State.cast_eq_castIf, castIf_anys] at member
    exact .inl member
  | castIf lib T j =>
    obtain ⟨x', -, rfl⟩ := Option.map_eq_some_iff.mp taken
    rw [castIf_anys] at member
    exact .inl member

end

/-! ### Runs -/

/-- What the reference refers to is there, of its type, and not `const` unless the reference is. -/
def Refers (objects : A → Option (Object N V)) (r : Ref N A) : Prop := ∃ o, objects r.target = some o ∧
  o.type.name = r.type.name ∧ (o.type.const = true → r.type.const = true)

structure Sound (anyRefHelper : M → CppType N → H) (s : State N A H V) : Prop where
  refers : ∀ T a, s.Grants anyRefHelper T a → Refers s.objects ⟨T, a⟩
  made : ∀ x ∈ s.anys, ∃ lib r, x = ofRef anyRefHelper lib r

/-- All ways to the object are `const`. -/
def Frozen (anyRefHelper : M → CppType N → H) (a : A) (o : Object N V) (s : State N A H V) : Prop :=
  s.objects a = some o ∧ ∀ T, s.Grants anyRefHelper T a → T.const = true

section
variable [DecidableEq A]

theorem Effect.refers (effect : Effect anyRefHelper s s')
    (before : ∀ T a, s.Grants anyRefHelper T a → Refers s.objects ⟨T, a⟩) :
    ∀ T a, s'.Grants anyRefHelper T a → Refers s'.objects ⟨T, a⟩ := by
  intro T a granted
  cases effect with
  | constructed free objects grants =>
    rw [objects]
    rcases grants T a granted with ⟨rfl, rfl⟩ | known
    · exact ⟨_, Function.update_self .., rfl, id⟩
    · obtain ⟨o, there, same⟩ := before T a known
      have other : a ≠ _ := fun eq => nomatch (eq ▸ there).symm.trans free
      exact ⟨o, (Function.update_of_ne other ..).trans there, same⟩
  | shared objects grants =>
    obtain ⟨T', known, name, const⟩ := grants T a granted
    obtain ⟨o, there, name', const'⟩ := before T' a known
    exact ⟨o, objects ▸ there, name'.trans name, const ∘ const'⟩
  | @assigned T' a' o o' _ _ there type objects grants =>
    obtain ⟨o₁, there₁, same⟩ := before T a (grants T a granted)
    rw [objects]
    by_cases here : a = a'
    · subst here
      obtain rfl := Option.some.inj (there.symm.trans there₁)
      exact ⟨o', Function.update_self .., type ▸ same⟩
    · exact ⟨o₁, (Function.update_of_ne here ..).trans there₁, same⟩

theorem Effect.frozen (effect : Effect anyRefHelper s s') (before : Frozen anyRefHelper a o s) :
    Frozen anyRefHelper a o s' := by
  obtain ⟨there, const⟩ := before
  cases effect with
  | constructed free objects grants =>
    have other : a ≠ _ := fun eq => nomatch (eq ▸ there).symm.trans free
    refine ⟨objects ▸ (Function.update_of_ne other ..).trans there, fun T granted => ?_⟩
    rcases grants T a granted with ⟨-, here⟩ | known
    · exact absurd here other
    · exact const T known
  | shared objects grants =>
    refine ⟨objects ▸ there, fun T granted => ?_⟩
    obtain ⟨T', known, -, const'⟩ := grants T a granted
    exact const' (const T' known)
  | assigned granted mutable _ _ objects grants =>
    have other : a ≠ _ := fun eq => nomatch (const _ (eq ▸ granted)).symm.trans mutable
    exact ⟨objects ▸ (Function.update_of_ne other ..).trans there, fun T known => const T (grants T a known)⟩

end

section
variable [DecidableEq A] [DecidableEq H]

theorem sound_reached (distinct : Distinct anyRefHelper) (reached : (lts N A V anyRefHelper).Reachable s) :
    Sound anyRefHelper s := by
  refine reached.invariant ⟨?_, nofun⟩ fun _ before _ taken => ⟨?_, ?_⟩
  · rintro T a (⟨⟨⟩⟩ | ⟨x, ⟨⟩, -⟩)
  · exact (step_effect distinct taken).refers before.refers
  · intro x member
    rcases step_anys taken x member with known | made
    · exact before.made x known
    · exact made

/-- From any state on. -/
theorem frozen_reached (distinct : Distinct anyRefHelper) (before : Frozen anyRefHelper a o s)
    (reached : Lts.Reachable ⟨s, (lts N A V anyRefHelper).step⟩ s') : Frozen anyRefHelper a o s' :=
  reached.invariant before fun _ before _ taken => (step_effect distinct taken).frozen before

/-- However references are passed on, each is one to an object of its type, and not to a `const` one unless it is
to `const`; a cast that succeeds gives the reference that the `AnyRef` was made from, and one to its type in its library does
succeed. What is `const`, or has been passed on as `const` only, keeps its value. -/
theorem nothing_laundered (distinct : Distinct anyRefHelper) (reached : (lts N A V anyRefHelper).Reachable s) :
    (∀ r ∈ s.refs, Refers s.objects r) ∧
    (∀ x ∈ s.anys, ∃ lib r, Refers s.objects r ∧ x.cast anyRefHelper lib r.type = .ok r ∧
      ∀ lib' T r', x.cast anyRefHelper lib' T = .ok r' ∨ x.castIf anyRefHelper lib' T = some r' → r' = r) ∧
    ∀ a o, s.objects a = some o → (o.type.const = true ∨ ∀ T, s.Grants anyRefHelper T a → T.const = true) →
      ∀ s', Lts.Reachable ⟨s, (lts N A V anyRefHelper).step⟩ s' → s'.objects a = some o := by
  obtain ⟨refers, made⟩ := sound_reached distinct reached
  refine ⟨fun r known => refers _ _ (.inl known), ?_, ?_⟩
  · intro x member
    obtain ⟨lib, r, rfl⟩ := made x member
    refine ⟨lib, r, refers _ _ (.inr ⟨_, member, lib, rfl⟩), ?_, ?_⟩
    · rw [cast_ok_iff, castIf_ofRef]
    · intro lib' T r' done
      rw [cast_ok_iff, or_self] at done
      exact (ofRef_grants distinct (castIf_some done).1).symm
  · intro a o there const s' later
    refine (frozen_reached distinct ⟨there, fun T granted => ?_⟩ later).1
    rcases const with declared | only
    · obtain ⟨o', there', -, kept⟩ := refers T a granted
      obtain rfl := Option.some.inj (there.symm.trans there')
      exact kept declared
    · exact only T granted

end

/-- An `int` and a `const int`, in two libraries that each have helpers of their own. -/
def helpers (lib : Bool) (T : CppType Bool) : Bool × CppType Bool := (lib, T)

/-- A `const int` was passed on from one library, and cast as what it is and as an `int` in the other. -/
def passedOn : List (Act Bool ℕ Bool ℕ) :=
  [.construct 0 ⟨false, true⟩ 7, .wrap true 0, .cast false ⟨false, false⟩ 0, .cast true ⟨false, true⟩ 0]

theorem nothing_laundered_passedOn : ∃ s : State Bool ℕ (Bool × CppType Bool) ℕ,
    (lts Bool ℕ ℕ helpers).run (fun _ _ => True) {} passedOn = some s ∧
    s.refs = [⟨⟨false, true⟩, 0⟩, ⟨⟨false, true⟩, 0⟩] ∧
    ∀ s', Lts.Reachable ⟨s, (lts Bool ℕ ℕ helpers).step⟩ s' → s'.objects 0 = some ⟨⟨false, true⟩, 7⟩ := by
  have distinct : Distinct helpers := fun _ _ _ _ eq => (Prod.mk.inj eq).2
  refine ⟨_, rfl, rfl, ?_⟩
  exact (nothing_laundered distinct (Lts.run_reaches passedOn .init rfl)).2.2 0 _ rfl (.inl rfl)

end Celestite.AnyRef
