import Mathlib.Data.Int.Notation
import Celestite.Filesystem.Tree

/-!
# The base directories of XDG

`clst::home_dir` and the functions of `clst::xdg`, as they are on POSIX systems other than macOS, for
a process with an environment and a user entry. The home directory is looked up before the variable
that may make it unnecessary.
-/

namespace Celestite.SysDirs
open Filesystem

/-- What the functions throw: `std::runtime_error`, `std::system_error` or `fs::filesystem_error`. -/
inductive DirError where
  | runtime (what : String)
  | system (code : ℤ)
  | filesystem (e : FsError)
  deriving DecidableEq

/-- The result of `getpwuid_r`. -/
inductive UserEntry where
  | found (pwDir : Path)
  | missing
  | failed (code : ℤ)

structure Process where
  getenv : String → Option Path
  userEntry : UserEntry
  cwd : Place
  permits : Place → Bool

abbrev Op (α : Type) := Program Tree DirError Empty α

def onTree {α : Type} (p : Filesystem.Op α) : Op α := fun t =>
  match p t with
  | .ok a t' => .ok a t'
  | .threw e t' => .threw (.filesystem e) t'

def homeDir (p : Process) : Except DirError Path :=
  match p.getenv "HOME" with
  | some (c :: cs) => .ok (c :: cs)
  | _ =>
    match p.userEntry with
    | .found pwDir => .ok pwDir
    | .missing => .error (.runtime "User entry not found")
    | .failed code => .error (.system code)

def getDir (p : Process) (env : String) (fallback : Path) : Op Path := do
  let dir := (p.getenv env).getD fallback
  let there ← Program.read (isDirectory p.cwd dir)
  if ¬there then onTree (createDirectories p.permits p.cwd dir)
  pure dir

/-- `home_dir() /= suffix` is evaluated before the call. -/
def xdgDir (p : Process) (env suffix : String) : Op Path :=
  match homeDir p with
  | .error e => Program.throw e
  | .ok home => getDir p env (append home suffix.toList)

def configDir (p : Process) : Op Path := xdgDir p "XDG_CONFIG_HOME" ".config"

def cacheDir (p : Process) : Op Path := xdgDir p "XDG_CACHE_HOME" ".cache"

def dataDir (p : Process) : Op Path := xdgDir p "XDG_DATA_HOME" ".local/share"

/-- The fallback is that of the data. -/
def stateDir (p : Process) : Op Path := xdgDir p "XDG_STATE_HOME" ".local/share"

inductive BaseDir where
  | config
  | cache
  | data
  | state
  deriving DecidableEq

namespace BaseDir

def get (p : Process) : BaseDir → Op Path
  | config => configDir p
  | cache => cacheDir p
  | data => dataDir p
  | state => stateDir p

def env : BaseDir → String
  | config => "XDG_CONFIG_HOME"
  | cache => "XDG_CACHE_HOME"
  | data => "XDG_DATA_HOME"
  | state => "XDG_STATE_HOME"

def suffix : BaseDir → String
  | config => ".config"
  | cache => ".cache"
  | data | state => ".local/share"

theorem get_eq (p : Process) (v : BaseDir) : v.get p = xdgDir p v.env v.suffix := by
  cases v <;> rfl

/-- The directory that is asked for, once the home directory is known. -/
def chosen (p : Process) (home : Path) (v : BaseDir) : Path :=
  (p.getenv v.env).getD (append home v.suffix.toList)

end BaseDir

/-- The places on the way to a directory. -/
def way (p : Process) (dir : Path) : List Place := trail (start p.cwd dir) (components dir)

/-- The tree that a call leaves, whether it returns or throws. -/
def treeAfter {α : Type} (t : Tree) : Outcome Tree DirError Empty α → Tree
  | .ok _ t' | .threw _ t' => t'
  | .undefined _ => t

/-- The tree after calls of the functions in turn. -/
def calls (p : Process) (vs : List BaseDir) (t : Tree) : Tree :=
  vs.foldl (fun t v => treeAfter t (v.get p t)) t

section
variable {p : Process} {v : BaseDir} {t t' : Tree} {home dir fallback : Path} {env : String}

theorem start_directory (cwd : t.entry p.cwd = some .directory) (dir : Path) :
    t.entry (start p.cwd dir) = some .directory := by
  unfold start
  split
  · exact t.root
  · exact cwd

theorem get_chosen (found : homeDir p = .ok home) :
    v.get p = getDir p v.env (append home v.suffix.toList) := by
  rw [BaseDir.get_eq, xdgDir, found]

theorem isDirectory_iff (cwd : t.entry p.cwd = some .directory) :
    isDirectory p.cwd dir t = true ↔ dir ≠ [] ∧ ∀ place ∈ way p dir, t.entry place = some .directory := by
  rw [isDirectory, Bool.and_eq_true, decide_eq_true_iff, beq_iff_eq, find_directory (start_directory cwd dir), way]

/-- The three ways a call goes: the directory is there, it is made, or an exception leaves at most
part of it. -/
theorem getDir_cases (cwd : t.entry p.cwd = some .directory) :
    let dir := (p.getenv env).getD fallback
    ((dir ≠ [] ∧ ∀ place ∈ way p dir, t.Open p.permits place) ∧
      ∃ t', getDir p env fallback t = .ok dir t' ∧
        ∀ place, t'.entry place = if place ∈ way p dir then some .directory else t.entry place) ∨
    (¬(dir ≠ [] ∧ ∀ place ∈ way p dir, t.Open p.permits place) ∧
      ∃ e t', getDir p env fallback t = .threw e t' ∧ t.Grows t' (way p dir)) := by
  intro dir
  have here := start_directory cwd dir
  by_cases there : isDirectory p.cwd dir t = true
  · obtain ⟨some_, all⟩ := (isDirectory_iff cwd).mp there
    refine .inl ⟨⟨some_, fun place member => .inl (all place member)⟩, t, ?_, fun place => ?_⟩
    · rw [getDir, Program.bind_ok (Program.read_run _ t), if_neg (not_not_intro there)]
      rfl
    · split_ifs with member
      · exact all place member
      · rfl
  · have asks : getDir p env fallback t =
        (do onTree (createDirectories p.permits p.cwd dir); pure dir : Op Path) t := by
      rw [getDir, Program.bind_ok (Program.read_run _ t), if_pos there]
    rw [asks]
    by_cases some_ : dir = []
    · refine .inr ⟨fun both => both.1 some_, .filesystem .invalidArgument, t, ?_, .rfl⟩
      have refused : onTree (createDirectories p.permits p.cwd dir) t =
          .threw (.filesystem .invalidArgument) t := by
        rw [onTree, createDirectories, if_pos some_, Program.throw_run]
      rw [Program.bind_threw refused]
    · by_cases free : ∀ place ∈ way p dir, t.Open p.permits place
      · obtain ⟨t', made, entries⟩ := createFrom_open here free
        refine .inl ⟨⟨some_, free⟩, t', ?_, entries⟩
        have done : onTree (createDirectories p.permits p.cwd dir) t = .ok () t' := by
          rw [onTree, createDirectories, if_neg some_, made]
        rw [Program.bind_ok done, Program.pure_run]
      · obtain ⟨e, t', threw, grows⟩ := createFrom_shut here free
        refine .inr ⟨fun both => free both.2, .filesystem e, t', ?_, grows⟩
        have failed : onTree (createDirectories p.permits p.cwd dir) t = .threw (.filesystem e) t' := by
          rw [onTree, createDirectories, if_neg some_, threw]
        rw [Program.bind_threw failed]

end
end Celestite.SysDirs
