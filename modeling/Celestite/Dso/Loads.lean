import Celestite.Dso.Model

/-!
# Each load is released once

`close` leaves the handle in place, so a load is released once along the runs that call `close` on
objects without a handle only. Every other operation passes each load on or releases it.
-/

namespace Celestite.Dso
open Concurrency Celestite.Sequential

variable {O H : Type} [DecidableEq O] {s s' : State O H} {this rhs : O} {d : Dso H} {loaded : Option H}

theorem close_log (d : Dso H) : d.close = (true, d.handle.toList.map .released) := by
  unfold close
  cases d.handle <;> rfl

omit [DecidableEq O] in
theorem close_cases {ret : Bool} (closed : s.close this = some (ret, s')) :
    ∃ d, s.objects this = some d ∧ ret = true ∧ s' = s.note (d.handle.toList.map .released) := by
  unfold State.close at closed
  obtain ⟨d, here, closed⟩ := Option.bind_eq_some_iff.mp closed
  rw [close_log] at closed
  obtain ⟨rfl, rfl⟩ := Prod.mk.inj (Option.some.inj closed)
  exact ⟨d, here, rfl, rfl⟩

theorem take_cases (taken : s.take this rhs = some s') :
    ∃ source, s.objects rhs = some source ∧ s' =
      (s.put this (some { handle := source.handle })).put rhs (some { handle := none }) := by
  unfold State.take at taken
  obtain ⟨source, here, taken⟩ := Option.bind_eq_some_iff.mp taken
  obtain ⟨after, -, taken⟩ := Option.bind_eq_some_iff.mp taken
  exact ⟨source, here, (Option.some.inj taken).symm⟩

theorem take_log (taken : s.take this rhs = some s') : s'.log = s.log := by
  obtain ⟨source, -, rfl⟩ := take_cases taken
  rfl

section
variable [Fintype O] [DecidableEq H]

/-- Each load is held by one object or has been released, and none was released twice. -/
def Sound (s : State O H) : Prop := Owned (holding Dso.handle s.objects) s.log

theorem Sound.note (sound : Sound s) (here : s.objects this = some d) :
    let s' := s.note (d.handle.toList.map .released)
    Owned (Function.update (holding Dso.handle s'.objects) this none) s'.log := by
  have held : holding Dso.handle s.objects this = d.handle := holding_some here
  exact held ▸ sound.drop this

theorem owned_take {uses : List (Use H)}
    (owned : Owned (Function.update (holding Dso.handle s.objects) this none) uses)
    (taken : s.take this rhs = some s') : Owned (holding Dso.handle s'.objects) uses := by
  obtain ⟨source, there, rfl⟩ := take_cases taken
  exact owned.take_object (holding_some there).symm rfl

def Idle (s : State O H) : Act O H → Prop
  | .close this => ∀ d, s.objects this = some d → d.isOpen = false
  | _ => True

theorem Sound.step {a : Act O H} (sound : Sound s) (idle : Idle s a)
    (taken : (lts O H).step s a = some s') : Sound s' := by
  unfold Sound
  cases a with
  | construct this =>
    simp only [lts, State.construct, Option.ite_none_right_eq_some, Option.some.injEq] at taken
    obtain ⟨free, rfl⟩ := taken
    have same := holding_update_same Dso.handle s.objects this (some {}) (holding_none (Option.isNone_iff_eq_none.mp free)).symm
    exact same ▸ sound
  | load this loaded =>
    simp only [lts, State.load, Option.ite_none_right_eq_some, Option.some.injEq] at taken
    obtain ⟨free, rfl⟩ := taken
    have filled := sound.fill (holding_none (Option.isNone_iff_eq_none.mp free)) loaded
    exact (holding_update Dso.handle s.objects this _).symm ▸ filled
  | open_ this loaded =>
    obtain ⟨⟨ret, s''⟩, opened, rfl⟩ := Option.map_eq_some_iff.mp taken
    unfold State.open_ at opened
    obtain ⟨d, here, opened⟩ := Option.bind_eq_some_iff.mp opened
    split at opened
    · obtain ⟨-, rfl⟩ := Prod.mk.inj (Option.some.inj opened)
      exact sound
    · rename_i shut
      obtain ⟨-, rfl⟩ := Prod.mk.inj (Option.some.inj opened)
      have free : holding Dso.handle s.objects this = none := by
        simpa [holding, here] using shut
      have filled := sound.fill free loaded
      exact (holding_update Dso.handle s.objects this _).symm ▸ filled
  | close this =>
    obtain ⟨⟨ret, s''⟩, closed, rfl⟩ := Option.map_eq_some_iff.mp taken
    obtain ⟨d, here, -, rfl⟩ := close_cases closed
    have shut : d.handle = none := by simpa [isOpen] using idle d here
    simp only [shut, State.note, Option.toList_none, List.map_nil, List.append_nil]
    exact sound
  | moveConstruct this rhs =>
    simp only [lts, State.moveConstruct, Option.ite_none_right_eq_some] at taken
    obtain ⟨free, taken⟩ := taken
    have empty : Function.update (holding Dso.handle s.objects) this none = holding Dso.handle s.objects :=
      holding_absent (Option.isNone_iff_eq_none.mp free)
    rw [take_log taken]
    exact owned_take (empty.symm ▸ sound) taken
  | moveAssign this rhs =>
    obtain ⟨⟨ret, s''⟩, closed, taken⟩ := Option.bind_eq_some_iff.mp taken
    obtain ⟨d, here, -, rfl⟩ := close_cases closed
    rw [take_log taken]
    exact owned_take (sound.note here) taken
  | destroy this =>
    obtain ⟨⟨ret, s''⟩, closed, taken⟩ := Option.bind_eq_some_iff.mp taken
    obtain ⟨d, here, -, rfl⟩ := close_cases closed
    obtain rfl := Option.some.inj taken
    exact (holding_update Dso.handle s.objects this none).symm ▸ sound.note here

theorem sound_of_idle (reached : (lts O H).Reaches Idle s) : Sound s :=
  reached.invariant .init fun _ sound idle taken => sound.step idle taken

/-- What `close` is for: it leaves an object that can be opened again, and the loads accounted for. -/
def Closes (s : State O H) (this : O) : Prop :=
  ∀ ret s', s.close this = some (ret, s') → ret = true →
    Sound s' ∧ ∃ d, s'.objects this = some d ∧ d.isOpen = false ∧
      ∀ h, ∃ s'', s'.open_ this (some h) = some (true, s'')

theorem closes_iff (sound : Sound s) (here : s.objects this = some d) :
    Closes s this ↔ d.isOpen = false := by
  constructor
  · intro closes
    have closed : s.close this = some (true, s.note (d.handle.toList.map .released)) := by
      simp [State.close, here, close_log]
    obtain ⟨-, d', there, shut, -⟩ := closes _ _ closed rfl
    obtain rfl := Option.some.inj (here.symm.trans there)
    exact shut
  · intro shut ret s' closed _
    have taken : (lts O H).step s (.close this) = some s' := by simp [lts, closed]
    have idle : Idle s (.close this) := fun d' there => by
      obtain rfl := Option.some.inj (here.symm.trans there)
      exact shut
    obtain ⟨d', there, -, rfl⟩ := close_cases closed
    obtain rfl := Option.some.inj (here.symm.trans there)
    have empty : d.handle = none := by simpa [isOpen] using shut
    refine ⟨sound.step idle taken, d, here, shut, fun h => ?_⟩
    simp [State.open_, State.note, here, empty]

/-- In the runs that call `close` on objects without a handle only, each load is held by one object or
has been released once; and in every state of these runs `close` does what it is for exactly on such
objects. -/
theorem released_once_of_idle :
    (∀ s, (lts O H).Reaches Idle s → Owned (holding Dso.handle s.objects) s.log ∧
      ((∀ o, s.objects o = none) → ∀ h, acquisitions s.log h = releases s.log h)) ∧
    ∀ s, (lts O H).Reaches Idle s → ∀ this d, s.objects this = some d →
      (Closes s this ↔ d.isOpen = false) := by
  constructor
  · intro s reached
    have sound := sound_of_idle reached
    exact ⟨sound, sound.released_of_absent⟩
  · intro s reached this d here
    exact closes_iff (sound_of_idle reached) here

end

/-- A library is loaded, passed on, and unloaded with the object that took it over. -/
theorem released_once_of_idle_moved : ∃ s : State (Fin 2) ℕ, (lts (Fin 2) ℕ).Reaches Idle s ∧
    s.log = [.acquired 7, .released 7] ∧ acquisitions s.log 7 = releases s.log 7 := by
  have reached : (lts (Fin 2) ℕ).Reaches Idle _ :=
    .step (a := .destroy 1) (.step (a := .destroy 0) (.step (a := .moveConstruct 1 0)
      (.step (a := .load 0 (some 7)) .init trivial rfl) trivial rfl) trivial rfl) trivial rfl
  exact ⟨_, reached, rfl, (released_once_of_idle.1 _ reached).2 (by decide) 7⟩

/-- A library that is loaded, closed and destroyed is unloaded twice. -/
theorem released_twice : ∃ s s' : State (Fin 1) ℕ, (lts (Fin 1) ℕ).Reachable s ∧
    s.close 0 = some (true, s') ∧ (s'.objects 0).map isOpen = some true ∧
    ∃ s'', s'.destroy 0 = some s'' ∧ acquisitions s''.log 7 = 1 ∧ releases s''.log 7 = 2 := by
  refine ⟨_, _, .step .init trivial (a := .load 0 (some 7)) rfl, rfl, by decide, _, rfl, by decide, by decide⟩

end Celestite.Dso
