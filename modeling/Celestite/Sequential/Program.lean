import Mathlib.Logic.Basic

/-!
# Sequential code

A program takes a state to a value and a state, leaves by an exception with the state it has
then, or does something undefined.
-/

namespace Celestite

inductive Outcome (σ ε φ α : Type*) where
  | ok (value : α) (state : σ)
  | threw (error : ε) (state : σ)
  | undefined (fault : φ)
  deriving DecidableEq

def Outcome.next {σ ε φ : Type*} (f : σ → Option σ) : Outcome σ ε φ Unit → Option (Outcome σ ε φ Unit)
  | ok _ s => (f s).map (ok ())
  | threw e s => some (threw e s)
  | undefined x => some (undefined x)

def Program (σ ε φ α : Type*) := σ → Outcome σ ε φ α

namespace Program
universe u
variable {σ ε φ : Type*} {α β : Type u}

instance : Monad (Program σ ε φ) where
  pure a := fun s => .ok a s
  bind p f := fun s =>
    match p s with
    | .ok a s' => f a s'
    | .threw e s' => .threw e s'
    | .undefined x => .undefined x

def read (f : σ → α) : Program σ ε φ α := fun s => .ok (f s) s

def update (f : σ → σ) : Program σ ε φ Unit := fun s => .ok () (f s)

def throw (e : ε) : Program σ ε φ α := fun s => .threw e s

def require (p : Prop) [Decidable p] (x : φ) : Program σ ε φ Unit := fun s =>
  if p then .ok () s else .undefined x

/-- A program on a part of the state: `get` reads the part, `put` replaces it. -/
def focus {τ : Type*} (get : σ → τ) (put : σ → τ → σ) (p : Program τ ε φ α) : Program σ ε φ α :=
  fun s =>
    match p (get s) with
    | .ok a t => .ok a (put s t)
    | .threw e t => .threw e (put s t)
    | .undefined x => .undefined x

@[simp] theorem pure_run (a : α) (s : σ) : (pure a : Program σ ε φ α) s = .ok a s := rfl

@[simp] theorem read_run (f : σ → α) (s : σ) : (read f : Program σ ε φ α) s = .ok (f s) s := rfl

@[simp] theorem update_run (f : σ → σ) (s : σ) : (update f : Program σ ε φ Unit) s = .ok () (f s) := rfl

@[simp] theorem throw_run (e : ε) (s : σ) : (throw e : Program σ ε φ α) s = .threw e s := rfl

theorem require_run {p : Prop} [Decidable p] {x : φ} {s : σ} (holds : p) :
    (require p x : Program σ ε φ Unit) s = .ok () s := if_pos holds

@[simp] theorem bind_run (p : Program σ ε φ α) (f : α → Program σ ε φ β) (s : σ) :
    (p >>= f) s = match p s with
      | .ok a s' => f a s'
      | .threw e s' => .threw e s'
      | .undefined x => .undefined x := rfl

section
variable {p : Program σ ε φ α} {f : α → Program σ ε φ β} {s s' : σ}

theorem bind_ok {a : α} (h : p s = .ok a s') : (p >>= f) s = f a s' := by rw [bind_run, h]

theorem bind_threw {e : ε} (h : p s = .threw e s') : (p >>= f) s = .threw e s' := by
  rw [bind_run, h]

theorem bind_undefined {x : φ} (h : p s = .undefined x) : (p >>= f) s = .undefined x := by
  rw [bind_run, h]

theorem focus_ok {τ : Type*} {get : σ → τ} {put : σ → τ → σ} {p : Program τ ε φ α} {a : α} {t : τ}
    (h : p (get s) = .ok a t) : p.focus get put s = .ok a (put s t) := by
  rw [focus, h]

theorem focus_threw {τ : Type*} {get : σ → τ} {put : σ → τ → σ} {p : Program τ ε φ α} {e : ε} {t : τ}
    (h : p (get s) = .threw e t) : p.focus get put s = .threw e (put s t) := by
  rw [focus, h]

end

/-! ### What a program leaves alone -/

/-- The program does not change this part of the state, whether it returns or throws. -/
def Preserves {τ : Type*} (part : σ → τ) (p : Program σ ε φ α) : Prop := ∀ s,
  match p s with
  | .ok _ s' | .threw _ s' => part s' = part s
  | .undefined _ => True

def NeverThrows (p : Program σ ε φ α) : Prop := ∀ s e s', p s ≠ .threw e s'

section
variable {τ : Type*} {part : σ → τ} {p : Program σ ε φ α} {f : α → Program σ ε φ β} {s s' : σ}

namespace Preserves

theorem of_ok (h : Preserves part p) {a : α} (run : p s = .ok a s') : part s' = part s := by
  have kept := h s
  rwa [run] at kept

theorem of_threw (h : Preserves part p) {e : ε} (run : p s = .threw e s') : part s' = part s := by
  have kept := h s
  rwa [run] at kept

theorem pure (a : α) : Preserves part (pure a : Program σ ε φ α) := fun _ => rfl

theorem read (g : σ → α) : Preserves part (read g : Program σ ε φ α) := fun _ => rfl

theorem throw (e : ε) : Preserves part (throw e : Program σ ε φ α) := fun _ => rfl

theorem update {g : σ → σ} (kept : ∀ s, part (g s) = part s) :
    Preserves part (update g : Program σ ε φ Unit) := kept

theorem require (c : Prop) [Decidable c] (x : φ) : Preserves part (require c x : Program σ ε φ Unit) := by
  intro s
  unfold Program.require
  split
  · rename_i eq
    split at eq <;> cases eq
    rfl
  · rename_i eq
    split at eq <;> cases eq
  · trivial

theorem bind (hp : Preserves part p) (hf : ∀ a, Preserves part (f a)) : Preserves part (p >>= f) := by
  intro s
  cases run : p s with
  | ok a mid =>
    have first := hp.of_ok run
    have second := hf a mid
    rw [bind_ok run]
    cases rest : f a mid with
    | ok | threw =>
      rw [rest] at second
      exact second.trans first
    | undefined => trivial
  | threw e mid =>
    rw [bind_threw run]
    exact hp.of_threw run
  | undefined x =>
    rw [bind_undefined run]
    trivial

end Preserves

namespace NeverThrows

theorem pure (a : α) : NeverThrows (pure a : Program σ ε φ α) := fun _ _ _ => nofun

theorem read (g : σ → α) : NeverThrows (read g : Program σ ε φ α) := fun _ _ _ => nofun

theorem update (g : σ → σ) : NeverThrows (update g : Program σ ε φ Unit) := fun _ _ _ => nofun

theorem require (c : Prop) [Decidable c] (x : φ) : NeverThrows (require c x : Program σ ε φ Unit) := by
  intro s e s'
  unfold Program.require
  split <;> nofun

theorem bind (hp : NeverThrows p) (hf : ∀ a, NeverThrows (f a)) : NeverThrows (p >>= f) := by
  intro s e s' run
  cases first : p s with
  | ok a mid => exact hf a mid e s' ((bind_ok first).symm.trans run)
  | threw e' mid => exact hp s e' mid first
  | undefined x => exact nomatch (bind_undefined first).symm.trans run

end NeverThrows
end
end Program
end Celestite
