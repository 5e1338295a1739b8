import Mathlib.Data.List.Basic
import Mathlib.Logic.Function.Basic
import Celestite.Sequential.Program

/-!
# A tree of directories

Paths are resolved by their components; there are no links, so `..` is the place the names before it
were reached from. `create_directories` makes the directories that are missing on the way.
-/

namespace Celestite.Filesystem

abbrev Name := List Char

abbrev Path := List Char

/-- A place in the tree by the names that lead to it, the last one first. -/
abbrev Place := List Name

inductive Kind where
  | directory
  | other
  deriving DecidableEq

/-- Every entry is in a directory. -/
@[ext] structure Tree where
  entry : Place → Option Kind
  root : entry [] = some .directory
  within : ∀ {name place kind}, entry (name :: place) = some kind → entry place = some .directory

inductive FsError where
  | invalidArgument
  | notADirectory
  | refused
  deriving DecidableEq

def components (p : Path) : List Name := (p.splitOn '/').filter (· ≠ [])

/-- Where the first component of a path is looked up. -/
def start (cwd : Place) (p : Path) : Place := if p.head? = some '/' then [] else cwd

def append (p q : Path) : Path :=
  if q.head? = some '/' then q
  else if p = [] ∨ p.getLast? = some '/' then p ++ q
  else p ++ '/' :: q

def Place.step (place : Place) (name : Name) : Place :=
  if name = ['.'] then place else if name = ['.', '.'] then place.tail else name :: place

/-- The places that the names lead through. -/
def trail : Place → List Name → List Place
  | _, [] => []
  | place, name :: names => Place.step place name :: trail (Place.step place name) names

namespace Tree

/-- What is found under a path, by its components; only directories are looked into. -/
def find (t : Tree) : Place → List Name → Option Kind
  | place, [] => t.entry place
  | place, name :: names =>
    if t.entry place = some .directory then t.find (Place.step place name) names else none

/-- The tree with one more directory. -/
def added (t : Tree) (name : Name) (place : Place) (dir : t.entry place = some .directory) : Tree where
  entry := Function.update t.entry (name :: place) (some .directory)
  root := (Function.update_of_ne (List.cons_ne_nil _ _).symm _ _).trans t.root
  within := by
    intro n p kind here
    have apart : place ≠ name :: place := (List.cons_ne_self name place).symm
    by_cases same : n :: p = name :: place
    · obtain ⟨-, rfl⟩ := List.cons.inj same
      rw [Function.update_of_ne apart, dir]
    · rw [Function.update_of_ne same] at here
      by_cases new : p = name :: place
      · rw [new, Function.update_self]
      · rw [Function.update_of_ne new, t.within here]

end Tree

abbrev Op (α : Type) := Program Tree FsError Empty α

/-- `permits` is what the system lets this process create. -/
def createDirectory (permits : Place → Bool) (place : Place) : Op Unit := fun t =>
  match t.entry place with
  | some .directory => .ok () t
  | some .other => .threw .notADirectory t
  | none =>
    match place with
    | [] => .threw .refused t
    | name :: dir =>
      if parent : t.entry dir = some .directory then
        if permits (name :: dir) then .ok () (t.added name dir parent) else .threw .refused t
      else .threw .refused t

def createFrom (permits : Place → Bool) : Place → List Name → Op Unit
  | _, [] => pure ()
  | place, name :: names => do
    createDirectory permits (Place.step place name)
    createFrom permits (Place.step place name) names

def createDirectories (permits : Place → Bool) (cwd : Place) (p : Path) : Op Unit :=
  if p = [] then Program.throw .invalidArgument else createFrom permits (start cwd p) (components p)

def isDirectory (cwd : Place) (p : Path) (t : Tree) : Bool :=
  p ≠ [] && t.find (start cwd p) (components p) == some .directory

/-- A directory is there or can be made. -/
def Tree.Open (t : Tree) (permits : Place → Bool) (place : Place) : Prop :=
  t.entry place = some .directory ∨ (t.entry place = none ∧ permits place = true)

/-- All entries are kept, and at these places there may be new directories. -/
def Tree.Grows (t t' : Tree) (places : List Place) : Prop :=
  ∀ place, t'.entry place = t.entry place ∨
    (t.entry place = none ∧ t'.entry place = some .directory ∧ place ∈ places)

section
variable {t t' t'' : Tree} {permits : Place → Bool} {place : Place} {name : Name} {names : List Name}
  {places places' : List Place}

theorem Tree.Grows.rfl : t.Grows t places := fun _ => .inl (Eq.refl _)

theorem Tree.Grows.keeps (grows : t.Grows t' places) {kind : Kind} (here : t.entry place = some kind) :
    t'.entry place = some kind := by
  rcases grows place with same | ⟨none, -⟩
  · rw [same, here]
  · rw [none] at here
    contradiction

theorem Tree.Grows.trans (grows : t.Grows t' places) (more : t'.Grows t'' places') :
    t.Grows t'' (places ++ places') := by
  intro place
  rcases more place with same | ⟨none, made, at_⟩
  · rcases grows place with same' | ⟨none, made, at_⟩
    · exact .inl (same.trans same')
    · exact .inr ⟨none, same.trans made, List.mem_append_left _ at_⟩
  · rcases grows place with same' | ⟨none', made', -⟩
    · exact .inr ⟨same' ▸ none, made, List.mem_append_right _ at_⟩
    · rw [made'] at none
      contradiction

theorem step_parent (dir : t.entry place = some .directory) (name : Name) :
    t.entry (Place.step place name) = some .directory ∨ Place.step place name = name :: place := by
  unfold Place.step
  split_ifs
  · exact .inl dir
  · cases place with
    | nil => exact .inl dir
    | cons name place => exact .inl (t.within dir)
  · exact .inr rfl

/-- What is found is a directory if and only if all places on the way are. -/
theorem find_directory (dir : t.entry place = some .directory) :
    t.find place names = some .directory ↔ ∀ p ∈ trail place names, t.entry p = some .directory := by
  induction names generalizing place with
  | nil => simp [Tree.find, trail, dir]
  | cons name names ih =>
    rw [Tree.find, if_pos dir, trail, List.forall_mem_cons]
    by_cases next : t.entry (Place.step place name) = some .directory
    · rw [ih next, and_iff_right next]
    · refine ⟨fun found => absurd ?_ next, fun all => absurd all.1 next⟩
      cases names with
      | nil => exact found
      | cons name' names =>
        rw [Tree.find, if_neg next] at found
        contradiction

theorem create_open (dir : t.entry place = some .directory)
    (free : t.Open permits (Place.step place name)) :
    ∃ t', createDirectory permits (Place.step place name) t = .ok () t' ∧
      t'.entry = Function.update t.entry (Place.step place name) (some .directory) := by
  rcases step_parent dir name with there | new
  · refine ⟨t, ?_, ?_⟩
    · rw [createDirectory.eq_def, there]
    · rw [← there, Function.update_eq_self]
  · rw [new] at free ⊢
    rcases free with there | ⟨none, permitted⟩
    · refine ⟨t, ?_, ?_⟩
      · rw [createDirectory.eq_def, there]
      · rw [← there, Function.update_eq_self]
    · refine ⟨t.added name place dir, ?_, rfl⟩
      rw [createDirectory.eq_def, none]
      simp only [dif_pos dir, if_pos permitted]

theorem create_shut (shut : ¬t.Open permits place) :
    ∃ e, createDirectory permits place t = .threw e t := by
  rw [createDirectory.eq_def]
  cases here : t.entry place with
  | some kind =>
    cases kind with
    | directory => exact absurd (.inl here) shut
    | other => exact ⟨_, rfl⟩
  | none =>
    cases place with
    | nil => exact ⟨_, rfl⟩
    | cons name dir =>
      have forbidden : permits (name :: dir) ≠ true := fun permitted => shut (.inr ⟨here, permitted⟩)
      simp only [if_neg forbidden]
      split <;> exact ⟨_, rfl⟩

/-- If every place on the way is a directory or can be made one, all of them are afterwards. -/
theorem createFrom_open (dir : t.entry place = some .directory)
    (free : ∀ p ∈ trail place names, t.Open permits p) :
    ∃ t', createFrom permits place names t = .ok () t' ∧
      ∀ p, t'.entry p = if p ∈ trail place names then some .directory else t.entry p := by
  induction names generalizing place t with
  | nil => exact ⟨t, rfl, fun p => (if_neg List.not_mem_nil).symm⟩
  | cons name names ih =>
    rw [trail, List.forall_mem_cons] at free
    obtain ⟨mid, made, entries⟩ := create_open dir free.1
    have here : mid.entry (Place.step place name) = some .directory := by
      rw [entries, Function.update_self]
    have rest : ∀ p ∈ trail (Place.step place name) names, mid.Open permits p := by
      intro p member
      rw [Tree.Open, entries]
      by_cases same : p = Place.step place name
      · exact .inl (by rw [same, Function.update_self])
      · rw [Function.update_of_ne same]
        exact free.2 p member
    obtain ⟨t', others, entries'⟩ := ih here rest
    refine ⟨t', ?_, fun p => ?_⟩
    · rw [createFrom, Program.bind_ok made, others]
    · rw [entries', entries, trail]
      by_cases later : p ∈ trail (Place.step place name) names
      · rw [if_pos later, if_pos (List.mem_cons_of_mem _ later)]
      · by_cases same : p = Place.step place name
        · rw [if_neg later, same, Function.update_self, if_pos List.mem_cons_self]
        · rw [if_neg later, Function.update_of_ne same,
            if_neg (by rw [List.mem_cons, not_or]; exact ⟨same, later⟩)]

theorem grows_update (entries : t'.entry = Function.update t.entry place (some .directory))
    (free : t.Open permits place) : t.Grows t' [place] := by
  intro p
  rw [entries]
  by_cases same : p = place
  · rw [same, Function.update_self]
    rcases free with there | ⟨none, -⟩
    · exact .inl there.symm
    · exact .inr ⟨none, rfl, List.mem_singleton_self _⟩
  · exact .inl (Function.update_of_ne same _ _)

/-- If some place is neither, it throws, and has made directories on the way at most. -/
theorem createFrom_shut (dir : t.entry place = some .directory)
    (shut : ¬∀ p ∈ trail place names, t.Open permits p) :
    ∃ e t', createFrom permits place names t = .threw e t' ∧ t.Grows t' (trail place names) := by
  induction names generalizing place t with
  | nil => exact absurd (fun p member => absurd member List.not_mem_nil) shut
  | cons name names ih =>
    by_cases free : t.Open permits (Place.step place name)
    · obtain ⟨mid, made, entries⟩ := create_open dir free
      have here : mid.entry (Place.step place name) = some .directory := by
        rw [entries, Function.update_self]
      have rest : ¬∀ p ∈ trail (Place.step place name) names, mid.Open permits p := by
        intro all
        refine shut ?_
        rw [trail, List.forall_mem_cons]
        refine ⟨free, fun p member => ?_⟩
        have free' := all p member
        rw [Tree.Open, entries] at free'
        by_cases same : p = Place.step place name
        · exact same ▸ free
        · rwa [Function.update_of_ne same] at free'
      obtain ⟨e, t', threw, grows⟩ := ih here rest
      refine ⟨e, t', ?_, (grows_update entries free).trans grows⟩
      rw [createFrom, Program.bind_ok made, threw]
    · obtain ⟨e, threw⟩ := create_shut free
      exact ⟨e, t, by rw [createFrom, Program.bind_threw threw], .rfl⟩

end
end Celestite.Filesystem
