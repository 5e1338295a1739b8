import Celestite.FileStream.Model

/-!
# Each handle is closed once
-/

namespace Celestite.BinaryFileStream
open Concurrency Celestite.Sequential

variable {O K : Type} {s s' : State O K} {this rhs : O} {f : BinaryFileStream K} {mode : FileStreamMode}
  {c : Fopen K}

/-- Whatever fails in `open`, the handle that `fopen` returned is kept. -/
theorem open_fp (shut : f.fp = none) : (f.open_ mode c).2.fp = c.file := by
  unfold open_
  rw [if_neg (by simp [shut])]
  cases c.file with
  | none => rfl
  | some fp =>
    simp only
    split
    · split <;> rfl
    · rfl

theorem open_open (open_ : f.fp.isSome = true) : f.open_ mode c = (false, f) := if_pos open_

theorem close_eq (f : BinaryFileStream K) :
    f.close.2.1.fp = none ∧ f.close.2.2 = f.fp.toList.map .released := by
  unfold close
  cases closed : f.fp with
  | none => exact ⟨closed, rfl⟩
  | some fp => exact ⟨rfl, rfl⟩

section
variable [DecidableEq O]

theorem take_cases (taken : s.take this rhs = some s') :
    ∃ source after, s.objects rhs = some source ∧ after.fp = none ∧
      after.fileSize = source.fileSize ∧
      s' = (s.put this (some { fp := source.fp, fileSize := source.fileSize })).put rhs (some after) := by
  unfold State.take at taken
  obtain ⟨source, here, taken⟩ := Option.bind_eq_some_iff.mp taken
  obtain ⟨after, there, taken⟩ := Option.bind_eq_some_iff.mp taken
  refine ⟨source, { after with fp := none }, here, rfl, ?_, (Option.some.inj taken).symm⟩
  rcases update_cases there with ⟨-, new⟩ | ⟨-, there⟩
  · obtain rfl := Option.some.inj new
    rfl
  · obtain rfl := Option.some.inj (here.symm.trans there)
    rfl

theorem take_log (taken : s.take this rhs = some s') : s'.log = s.log := by
  obtain ⟨source, after, -, -, -, rfl⟩ := take_cases taken
  rfl

def State.closed (s : State O K) (this : O) (f : BinaryFileStream K) : State O K :=
  (s.put this (some f.close.2.1)).note f.close.2.2

theorem closed_holding : holding fp (s.closed this f).objects = Function.update (holding fp s.objects) this none := by
  apply (holding_update fp s.objects this _).trans
  rw [Option.bind_some, (close_eq f).1]

/-- What one operation does. -/
inductive Stepped [DecidableEq K] (s : State O K) : Act O K → State O K → Prop where
  | construct {this : O} (free : s.objects this = none) : Stepped s (.construct this) (s.put this (some {}))
  | refused {this : O} {f : BinaryFileStream K} {mode : FileStreamMode} {c : Fopen K}
      (here : s.objects this = some f) (isOpen : f.fp.isSome = true) :
      Stepped s (.open_ this mode c) (s.put this (some f))
  | opened {this : O} {f : BinaryFileStream K} {mode : FileStreamMode} {c : Fopen K}
      (here : s.objects this = some f) (shut : f.fp = none) :
      Stepped s (.open_ this mode c) ((s.put this (some (f.open_ mode c).2)).opened mode c)
  | closed {this : O} {f : BinaryFileStream K} (here : s.objects this = some f) :
      Stepped s (.close this) (s.closed this f)
  | moveConstruct {this rhs : O} {s' : State O K} (free : s.objects this = none)
      (taken : s.take this rhs = some s') : Stepped s (.moveConstruct this rhs) s'
  | moveAssign {this rhs : O} {f : BinaryFileStream K} {s' : State O K} (here : s.objects this = some f)
      (taken : (s.closed this f).take this rhs = some s') : Stepped s (.moveAssign this rhs) s'
  | destroy {this : O} {f : BinaryFileStream K} (here : s.objects this = some f) :
      Stepped s (.destroy this) ((s.put this none).note (f.fp.toList.map .released))

theorem step_stepped [DecidableEq K] {a : Act O K} (taken : (lts O K).step s a = some s') : Stepped s a s' := by
  cases a with
  | construct this =>
    simp only [lts, State.construct, Option.ite_none_right_eq_some, Option.some.injEq] at taken
    obtain ⟨free, rfl⟩ := taken
    exact .construct (Option.isNone_iff_eq_none.mp free)
  | open_ this mode c =>
    obtain ⟨f, here, taken⟩ := Option.bind_eq_some_iff.mp taken
    obtain rfl := Option.some.inj taken
    split
    · rename_i isOpen
      rw [open_open isOpen]
      exact .refused here isOpen
    · rename_i shut
      exact .opened here (by simpa using shut)
  | close this =>
    obtain ⟨f, here, closed⟩ := Option.bind_eq_some_iff.mp taken
    obtain rfl := Option.some.inj closed
    exact .closed here
  | moveConstruct this rhs =>
    simp only [lts, State.moveConstruct, Option.ite_none_right_eq_some] at taken
    exact .moveConstruct (Option.isNone_iff_eq_none.mp taken.1) taken.2
  | moveAssign this rhs =>
    obtain ⟨mid, closed, taken⟩ := Option.bind_eq_some_iff.mp taken
    obtain ⟨f, here, closed⟩ := Option.bind_eq_some_iff.mp closed
    obtain rfl := Option.some.inj closed
    exact .moveAssign here taken
  | destroy this =>
    obtain ⟨f, here, taken⟩ := Option.bind_eq_some_iff.mp taken
    obtain rfl := Option.some.inj taken
    exact .destroy here

variable [Fintype O] [DecidableEq K]

/-- Each handle is held by one stream or has been closed, and none was closed twice. -/
def Sound (s : State O K) : Prop := Sole id (holding fp s.objects) s.log

theorem sole_take {log : List (Use K)} (sole : Sole id (Function.update (holding fp s.objects) this none) log)
    (taken : s.take this rhs = some s') : Sole id (holding fp s'.objects) log := by
  obtain ⟨source, after, there, gone, -, rfl⟩ := take_cases taken
  exact sole.take_object (holding_some there).symm gone

theorem Sound.closed (sound : Sound s) (here : s.objects this = some f) : Sound (s.closed this f) := by
  have held : holding fp s.objects this = f.fp := holding_some here
  have dropped := sound.drop this
  rw [held, ← (close_eq f).2] at dropped
  unfold Sound
  rw [closed_holding]
  exact dropped

theorem Sound.step {a : Act O K} (sound : Sound s) (lawful : Lawful s a) (stepped : Stepped s a s') :
    Sound s' := by
  unfold Sound
  cases stepped with
  | @construct this free =>
    have same := holding_update_same fp s.objects this (some {}) (holding_none free).symm
    exact same ▸ sound
  | @refused this f mode c here isOpen =>
    exact (holding_update_same fp s.objects this (some f) (by simp [here])).symm ▸ sound
  | @opened this f mode c here shut =>
    have free : holding fp s.objects this = none := (holding_some here).trans shut
    have fresh : ∀ k ∈ c.file, ∀ k', Live s.log k' → id k' ≠ id k := by
      rintro k file k' live rfl
      exact lawful _ file live
    have filled := sound.fill free c.file fresh
    have held := holding_update fp s.objects this (some (f.open_ mode c).2)
    rw [Option.bind_some, open_fp shut] at held
    exact held.symm ▸ filled
  | closed here => exact sound.closed here
  | @moveConstruct this rhs s' free taken =>
    have empty : Function.update (holding fp s.objects) this none = holding fp s.objects := holding_absent free
    rw [take_log taken]
    exact sole_take (empty.symm ▸ sound) taken
  | @moveAssign this rhs f s' here taken =>
    have empty : Function.update (holding fp (s.closed this f).objects) this none =
        holding fp (s.closed this f).objects := by
      rw [closed_holding, Function.update_idem]
    rw [take_log taken]
    exact sole_take (empty.symm ▸ sound.closed here) taken
  | @destroy this f here =>
    have held : holding fp s.objects this = f.fp := holding_some here
    have dropped := sound.drop this
    rw [held] at dropped
    exact (holding_update fp s.objects this none).symm ▸ dropped

theorem sound_of_lawful (reached : (lts O K).Reaches Lawful s) : Sound s :=
  reached.invariant .init fun _ sound lawful taken => sound.step lawful (step_stepped taken)

/-- No two streams hold one handle, the handles that are open are those held, each is closed once
before `fopen` returns it again, and once no stream is left every handle has been closed. -/
theorem closed_once (reached : (lts O K).Reaches Lawful s) :
    (∀ o o' f f' k, s.objects o = some f → s.objects o' = some f' → f.fp = some k → f'.fp = some k → o = o') ∧
    (∀ k, Live s.log k ↔ ∃ o f, s.objects o = some f ∧ f.fp = some k) ∧
    (∀ p, p <+: s.log → ∀ k, releases p k ≤ acquisitions p k ∧ acquisitions p k ≤ releases p k + 1) ∧
    ((∀ o, s.objects o = none) → ∀ k, acquisitions s.log k = releases s.log k) := by
  have sound := sound_of_lawful reached
  refine ⟨?_, ?_, ?_, ?_⟩
  · intro o o' f f' k here there first second
    exact sound.unique (Option.bind_eq_some_iff.mpr ⟨f, here, first⟩)
      (Option.bind_eq_some_iff.mpr ⟨f', there, second⟩) rfl
  · exact fun k => sound.live_iff_object
  · intro p short k
    exact ⟨sound.covered p short k, sound.single p short k⟩
  · exact sound.released_of_absent

/-- A handle whose length cannot be measured is still moved on and closed. -/
theorem closed_once_moved : ∃ s : State (Fin 2) ℕ, (lts (Fin 2) ℕ).Reaches Lawful s ∧
    s.log = [.acquired 7, .released 7] ∧ acquisitions s.log 7 = releases s.log 7 := by
  obtain ⟨s, ran, log, gone⟩ : ∃ s, (lts (Fin 2) ℕ).run Lawful (lts (Fin 2) ℕ).init
      [.construct 0, .open_ 0 .read { file := some 7, seeksEnd := false, length := 0 }, .moveConstruct 1 0,
       .moveAssign 1 1, .destroy 0, .destroy 1] = some s ∧ s.log = [.acquired 7, .released 7] ∧
        ∀ o, s.objects o = none := ⟨_, rfl, rfl, by decide⟩
  have reached := Lts.run_reaches _ .init ran
  obtain ⟨-, -, -, closed⟩ := closed_once reached
  exact ⟨s, reached, log, closed gone 7⟩

end
end Celestite.BinaryFileStream
