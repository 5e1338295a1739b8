import Celestite.FileStream.Handles

/-!
# What a stream says its length is

A move copies `file_size_` and leaves it in the source, so the length of a stream is that of its
file along the runs that move from streams without a measured length only.
-/

namespace Celestite.BinaryFileStream
open Concurrency Celestite.Sequential

variable {O K : Type} {s s' : State O K} {this rhs : O} {f : BinaryFileStream K}
  {origin : K → Option Opening} {mode : FileStreamMode} {c : Fopen K}

/-- A closed stream reports -1, an open one what was measured when its handle was opened, if anything. -/
structure Tells (origin : K → Option Opening) (f : BinaryFileStream K) : Prop where
  closed : f.isOpen = false → f.getLength = -1
  opened : ∀ k, f.fp = some k → ∃ opening, origin k = some opening ∧
    f.getLength = if opening.mode.measures then opening.length else -1

def Consistent (s : State O K) : Prop := ∀ o f, s.objects o = some f → Tells s.origin f

def Measured (s : State O K) (f : BinaryFileStream K) : Prop :=
  ∃ k opening, f.fp = some k ∧ s.origin k = some opening ∧ opening.mode.measures = true

def Seekable : Act O K → Prop
  | .open_ _ _ c => c.file ≠ none → c.seeksEnd = true ∧ 0 ≤ c.length
  | _ => True

/-- Allows moves from another stream unless its length was measured. -/
def Spares (s : State O K) : Act O K → Prop
  | .moveConstruct this rhs | .moveAssign this rhs =>
    this ≠ rhs → ∀ f, s.objects rhs = some f → ¬Measured s f
  | _ => True

instance (a : Act O K) : Decidable (Seekable a) :=
  match a with
  | .open_ _ _ c => decidable_of_iff (c.file = none ∨ c.seeksEnd = true ∧ 0 ≤ c.length) (by
      unfold Seekable
      tauto)
  | .construct _ | .close _ | .moveConstruct _ _ | .moveAssign _ _ | .destroy _ => isTrue trivial

theorem Tells.of_closed (shut : f.fp = none) (unset : f.fileSize = -1) : Tells origin f where
  closed _ := unset
  opened _ held := nomatch shut.symm.trans held

theorem Tells.fileSize_of_closed (tells : Tells origin f) (shut : f.fp = none) : f.fileSize = -1 :=
  tells.closed (by simp [isOpen, shut])

theorem tells_open [DecidableEq K] (shut : f.fp = none) (unset : f.fileSize = -1)
    (seekable : c.file ≠ none → c.seeksEnd = true ∧ 0 ≤ c.length) :
    Tells (fun k => if c.file = some k then some { mode := mode, length := c.length } else origin k)
      (f.open_ mode c).2 := by
  unfold BinaryFileStream.open_
  rw [if_neg (by simp [shut])]
  cases file : c.file with
  | none => exact .of_closed rfl unset
  | some fp =>
    obtain ⟨seeks, -⟩ := seekable (by simp [file])
    cases measures : mode.measures with
    | true =>
      simp only [seeks, if_true]
      refine ⟨fun shut => by simp [isOpen] at shut, fun k held => ?_⟩
      obtain rfl := Option.some.inj held
      exact ⟨_, if_pos rfl, by simp [measures, getLength]⟩
    | false =>
      refine ⟨fun shut => by simp [isOpen] at shut, fun k held => ?_⟩
      obtain rfl := Option.some.inj held
      exact ⟨_, if_pos rfl, by simp [measures, getLength, unset]⟩

theorem Tells.close (tells : Tells origin f) : Tells origin f.close.2.1 := by
  unfold BinaryFileStream.close
  cases held : f.fp with
  | none => exact tells
  | some fp => exact .of_closed rfl rfl

theorem Tells.fileSize_of_spared (tells : Tells s.origin f) (spared : ¬Measured s f) : f.fileSize = -1 := by
  cases held : f.fp with
  | none => exact tells.fileSize_of_closed held
  | some k =>
    obtain ⟨opening, found, length⟩ := tells.opened k held
    have plain : ¬opening.mode.measures = true := fun measures => spared ⟨k, opening, held, found, measures⟩
    rw [if_neg plain] at length
    exact length

theorem not_measured_of_unset (consistent : Consistent s)
    (nonneg : ∀ k opening, s.origin k = some opening → 0 ≤ opening.length)
    (there : s.objects rhs = some f) (unset : f.getLength = -1) : ¬Measured s f := by
  rintro ⟨k, opening, held, found, measures⟩
  obtain ⟨opening', found', length⟩ := (consistent rhs f there).opened k held
  obtain rfl := Option.some.inj (found.symm.trans found')
  rw [if_pos measures] at length
  have nonneg := nonneg k opening found
  omega

section
variable [DecidableEq O]

theorem Consistent.put (consistent : Consistent s) {x : Option (BinaryFileStream K)}
    (tells : ∀ f, x = some f → Tells s.origin f) : Consistent (s.put this x) :=
  forall_update (fun o f _ => consistent o f) tells

theorem Consistent.close (consistent : Consistent s) (here : s.objects this = some f) :
    Consistent (s.closed this f) := by
  apply consistent.put
  intro f' same
  obtain rfl := Option.some.inj same
  exact (consistent this f here).close

theorem Consistent.take (consistent : Consistent s)
    (spared : ∀ f, s.objects rhs = some f → ¬Measured s f) (taken : s.take this rhs = some s') :
    Consistent s' := by
  obtain ⟨source, after, there, gone, size, rfl⟩ := take_cases taken
  have tells := consistent rhs source there
  have taken : Consistent (s.put this (some { fp := source.fp, fileSize := source.fileSize })) := by
    apply consistent.put
    intro f same
    obtain rfl := Option.some.inj same
    exact ⟨tells.closed, tells.opened⟩
  apply taken.put
  intro f same
  obtain rfl := Option.some.inj same
  exact .of_closed gone (size.trans (tells.fileSize_of_spared (spared source there)))

theorem take_length (taken : s.take this rhs = some s') (there : s.objects rhs = some f) :
    ∃ after, s'.objects rhs = some after ∧ after.isOpen = false ∧ after.getLength = f.getLength := by
  obtain ⟨source, after, there', gone, size, rfl⟩ := take_cases taken
  obtain rfl := Option.some.inj (there.symm.trans there')
  exact ⟨after, Function.update_self rhs _ _, by simp [isOpen, gone], size⟩

theorem unset_of_take (after : Consistent s') (taken : s.take this rhs = some s')
    (there : s.objects rhs = some f) : f.getLength = -1 := by
  obtain ⟨after', there', shut, length⟩ := take_length taken there
  rw [← length]
  exact (after rhs after' there').closed shut

variable [DecidableEq K]

theorem origin_step {a : Act O K} (stepped : Stepped s a s') (seekable : Seekable a)
    (nonneg : ∀ k opening, s.origin k = some opening → 0 ≤ opening.length) :
    ∀ k opening, s'.origin k = some opening → 0 ≤ opening.length := by
  intro k opening found
  cases stepped with
  | opened here shut =>
    simp only [State.opened] at found
    split at found
    · rename_i file
      obtain rfl := Option.some.inj found
      exact (seekable (by simp [file])).2
    · exact nonneg k opening found
  | moveConstruct free taken =>
    obtain ⟨_, _, _, _, _, rfl⟩ := take_cases taken
    exact nonneg k opening found
  | moveAssign here taken =>
    obtain ⟨_, _, _, _, _, rfl⟩ := take_cases taken
    exact nonneg k opening found
  | construct | refused | closed | destroy => exact nonneg k opening found

/-- A move from a measured stream makes the lengths wrong. -/
theorem spares_of_consistent {a : Act O K} (consistent : Consistent s)
    (nonneg : ∀ k opening, s.origin k = some opening → 0 ≤ opening.length)
    (stepped : Stepped s a s') (after : Consistent s') : Spares s a := by
  cases stepped with
  | construct | refused | opened | closed | destroy => trivial
  | moveConstruct free taken =>
    intro _ f there
    exact not_measured_of_unset consistent nonneg there (unset_of_take after taken there)
  | @moveAssign this rhs f s' here taken =>
    intro apart source there
    have kept : (s.closed this f).objects rhs = some source := (Function.update_of_ne (Ne.symm apart) _ _).trans there
    exact not_measured_of_unset consistent nonneg there (unset_of_take after taken kept)

variable [Fintype O]

theorem Consistent.open_ (consistent : Consistent s) (sound : Sound s)
    (lawful : Lawful s (.open_ this mode c)) (seekable : Seekable (O := O) (.open_ this mode c))
    (here : s.objects this = some f) (shut : f.fp = none) :
    Consistent ((s.put this (some (f.open_ mode c).2)).opened mode c) := by
  have unset := (consistent this f here).fileSize_of_closed shut
  intro o g there
  unfold State.opened State.note State.put at there ⊢
  rcases update_cases there with ⟨-, new⟩ | ⟨-, there⟩
  · obtain rfl := Option.some.inj new
    exact tells_open shut unset seekable
  · obtain ⟨closed, opened⟩ := consistent o g there
    refine ⟨closed, fun k held => ?_⟩
    -- `fopen` returned no handle that is open, so this one is another stream's
    have other : c.file ≠ some k := by
      intro file
      exact lawful k file (sound.live_iff_object.mpr ⟨o, g, there, held⟩)
    simp only [if_neg other]
    exact opened k held

theorem Consistent.step {a : Act O K} (consistent : Consistent s) (sound : Sound s) (lawful : Lawful s a)
    (seekable : Seekable a) (spares : Spares s a) (stepped : Stepped s a s') : Consistent s' := by
  cases stepped with
  | construct free =>
    apply consistent.put
    intro f same
    obtain rfl := Option.some.inj same
    exact .of_closed rfl rfl
  | refused here isOpen =>
    apply consistent.put
    intro f same
    obtain rfl := Option.some.inj same
    exact consistent _ _ here
  | opened here shut => exact consistent.open_ sound lawful seekable here shut
  | closed here => exact consistent.close here
  | moveConstruct free taken =>
    refine consistent.take (fun f there => spares ?_ f there) taken
    rintro rfl
    simp [there] at free
  | @moveAssign this rhs f s' here taken =>
    refine (consistent.close here).take (fun source there => ?_) taken
    change Function.update s.objects this _ rhs = some source at there
    rcases update_cases there with ⟨-, new⟩ | ⟨other, there⟩
    -- a stream moved to itself has just been closed
    · obtain rfl := Option.some.inj new
      rintro ⟨k, opening, held, -⟩
      simp [(close_eq f).1] at held
    · exact spares (Ne.symm other) source there
  | destroy here =>
    apply consistent.put
    intro _ gone
    contradiction

/-- Allows what the C library and the callers may do, with files that can be measured, and moves from
streams that have no measured length. -/
def Fit (s : State O K) (a : Act O K) : Prop := Lawful s a ∧ Seekable a ∧ Spares s a

theorem consistent_of_fit (reached : (lts O K).Reaches Fit s) :
    Sound s ∧ Consistent s ∧ ∀ k opening, s.origin k = some opening → 0 ≤ opening.length := by
  refine reached.invariant (I := fun s => Sound s ∧ Consistent s ∧
    ∀ k opening, s.origin k = some opening → 0 ≤ opening.length)
    ⟨.init, fun o f there => ?_, fun k opening found => ?_⟩ ?_
  · change none = some f at there
    contradiction
  · change none = some opening at found
    contradiction
  · intro s a s' _ known fit taken
    obtain ⟨sound, consistent, nonneg⟩ := known
    obtain ⟨lawful, seekable, spares⟩ := fit
    have stepped := step_stepped taken
    exact ⟨sound.step lawful stepped, consistent.step sound lawful seekable spares stepped,
      origin_step stepped seekable nonneg⟩

/-- In the runs that move from streams without a measured length only, every stream reports -1 when it
is closed and the length of its file, if it was measured, when it is open; and any other move from a
state of these runs leads to a stream that does not. -/
theorem consistent_iff_spares :
    (∀ s, (lts O K).Reaches Fit s → Consistent s) ∧
    ∀ s a s', (lts O K).Reaches Fit s → Lawful s a → Seekable a → (lts O K).step s a = some s' →
      (Consistent s' ↔ Spares s a) := by
  constructor
  · intro s reached
    exact (consistent_of_fit reached).2.1
  · intro s a s' reached lawful seekable taken
    obtain ⟨sound, consistent, nonneg⟩ := consistent_of_fit reached
    exact ⟨spares_of_consistent consistent nonneg (step_stepped taken),
      fun spares => consistent.step sound lawful seekable spares (step_stepped taken)⟩

end

/-- A file is opened for reading, and the stream is closed. -/
theorem consistent_iff_spares_closed : ∃ s s' : State (Fin 2) ℕ, (lts (Fin 2) ℕ).Reaches Fit s ∧
    (lts (Fin 2) ℕ).step s (.close 0) = some s' ∧ (s.objects 0).map getLength = some 10 ∧ Consistent s' := by
  have reached : (lts (Fin 2) ℕ).Reaches Fit _ :=
    .step (a := .open_ 0 .read { file := some 7, seeksEnd := true, length := 10 })
      (.step (a := .construct 0) .init ⟨trivial, trivial, trivial⟩ rfl) ⟨by decide, by decide, trivial⟩ rfl
  have closes := consistent_iff_spares.2 _ (.close 0) _ reached trivial trivial rfl
  exact ⟨_, _, reached, rfl, rfl, closes.mpr trivial⟩

/-- A stream that was moved from is opened for writing and reports the length of its former file. -/
theorem length_of_former_file : ∃ s : State (Fin 2) ℕ,
    (lts (Fin 2) ℕ).Reaches (fun s a => Lawful s a ∧ Seekable a) s ∧
    (∃ f opening, s.objects 0 = some f ∧ f.fp = some 8 ∧ s.origin 8 = some opening ∧
      opening.mode = .write ∧ f.getLength = 10) ∧ ¬Consistent s := by
  obtain ⟨s, ran, f, opening, here, held, found, mode, length⟩ :
      ∃ s, (lts (Fin 2) ℕ).run (fun s a => Lawful s a ∧ Seekable a) (lts (Fin 2) ℕ).init
        [.construct 0, .open_ 0 .read { file := some 7, seeksEnd := true, length := 10 }, .moveConstruct 1 0,
         .open_ 0 .write { file := some 8, seeksEnd := true, length := 0 }] = some s ∧
        ∃ f opening, s.objects 0 = some f ∧ f.fp = some 8 ∧ s.origin 8 = some opening ∧
          opening.mode = .write ∧ f.getLength = 10 :=
    ⟨_, rfl, _, _, rfl, rfl, rfl, rfl, rfl⟩
  refine ⟨s, Lts.run_reaches _ .init ran, ⟨f, opening, here, held, found, mode, length⟩, ?_⟩
  intro consistent
  obtain ⟨opening', found', length'⟩ := (consistent 0 f here).opened 8 held
  obtain rfl := Option.some.inj (found.symm.trans found')
  rw [mode, length] at length'
  contradiction

end Celestite.BinaryFileStream
