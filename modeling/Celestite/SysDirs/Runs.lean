import Celestite.SysDirs.Xdg

/-!
# Runs of the base directory functions

What a call returns is a directory, and stays the answer: later calls only add directories.
-/

namespace Celestite.SysDirs
open Filesystem

section
variable {p : Process} {v : BaseDir} {t t' : Tree} {home dir : Path}

/-- The places on the way to what is asked for are directories or can be made so. -/
def Free (p : Process) (t : Tree) (dir : Path) : Prop :=
  dir ≠ [] ∧ ∀ place ∈ way p dir, t.Open p.permits place

theorem get_cases (p : Process) (v : BaseDir) (cwd : t.entry p.cwd = some .directory) :
    (∃ e, homeDir p = .error e ∧ v.get p t = .threw e t) ∨
    ∃ home, homeDir p = .ok home ∧
      ((Free p t (v.chosen p home) ∧ ∃ t', v.get p t = .ok (v.chosen p home) t' ∧
        ∀ place, t'.entry place =
          if place ∈ way p (v.chosen p home) then some .directory else t.entry place) ∨
      (¬Free p t (v.chosen p home) ∧
        ∃ e t', v.get p t = .threw e t' ∧ t.Grows t' (way p (v.chosen p home)))) := by
  cases found : homeDir p with
  | error e =>
    refine .inl ⟨e, rfl, ?_⟩
    rw [BaseDir.get_eq, xdgDir, found]
    rfl
  | ok home =>
    refine .inr ⟨home, rfl, ?_⟩
    rw [get_chosen found]
    exact getDir_cases cwd

theorem made_directory (cwd : t.entry p.cwd = some .directory) (some_ : dir ≠ [])
    (entries : ∀ place, t'.entry place = if place ∈ way p dir then some .directory else t.entry place) :
    isDirectory p.cwd dir t' = true := by
  have cwd' : t'.entry p.cwd = some .directory := by
    rw [entries]
    split
    · rfl
    · exact cwd
  rw [isDirectory_iff cwd']
  exact ⟨some_, fun place member => (entries place).trans (if_pos member)⟩

/-- Without a home directory no call returns, whatever the variables are. With one, the directory that
is asked for is returned and there if it is not the empty path and every place on the way is a
directory or can be made one; nothing but these places changes. Else an exception leaves some of the
missing directories at most. -/
theorem base_dir_created (p : Process) (v : BaseDir) (cwd : t.entry p.cwd = some .directory) :
    (∀ e, homeDir p = .error e → v.get p t = .threw e t) ∧
    ∀ home, homeDir p = .ok home →
      (Free p t (v.chosen p home) →
        ∃ t', v.get p t = .ok (v.chosen p home) t' ∧ isDirectory p.cwd (v.chosen p home) t' = true ∧
          ∀ place, t'.entry place =
            if place ∈ way p (v.chosen p home) then some .directory else t.entry place) ∧
      (¬Free p t (v.chosen p home) →
        ∃ e t', v.get p t = .threw e t' ∧ t.Grows t' (way p (v.chosen p home))) := by
  rcases get_cases p v cwd with ⟨e, none, run⟩ | ⟨home, found, cases⟩
  · refine ⟨fun e' none' => ?_, fun home found => ?_⟩
    · rw [none] at none'
      cases none'
      exact run
    · rw [none] at found
      contradiction
  · refine ⟨fun e none => ?_, fun home' found' => ?_⟩
    · rw [found] at none
      contradiction
    rw [found] at found'
    cases found'
    rcases cases with ⟨free, t', run, entries⟩ | ⟨shut, fails⟩
    · exact ⟨fun _ => ⟨t', run, made_directory cwd free.1 entries, entries⟩, fun shut => absurd free shut⟩
    · exact ⟨fun free => absurd free shut, fun _ => fails⟩

theorem get_grows (v : BaseDir) (cwd : t.entry p.cwd = some .directory) :
    ∃ places, t.Grows (treeAfter t (v.get p t)) places := by
  rcases get_cases p v cwd with ⟨e, -, run⟩ | ⟨home, -, ⟨free, t', run, entries⟩ | ⟨-, e, t', run, grows⟩⟩
  · rw [run]
    exact ⟨[], .rfl⟩
  · rw [run]
    refine ⟨way p (v.chosen p home), fun place => ?_⟩
    simp only [treeAfter, entries]
    split_ifs with member
    · rcases free.2 place member with there | ⟨none, -⟩
      · exact .inl there.symm
      · exact .inr ⟨none, rfl, member⟩
    · exact .inl rfl
  · rw [run]
    exact ⟨_, grows⟩

theorem calls_keep (vs : List BaseDir) (cwd : t.entry p.cwd = some .directory) {place : Place} {kind : Kind}
    (here : t.entry place = some kind) : (calls p vs t).entry place = some kind := by
  induction vs generalizing t with
  | nil => exact here
  | cons v vs ih =>
    obtain ⟨places, grows⟩ := @get_grows p t v cwd
    exact ih (grows.keeps cwd) (grows.keeps here)

theorem get_returned (cwd : t.entry p.cwd = some .directory) (run : v.get p t = .ok dir t') :
    ∃ home, homeDir p = .ok home ∧ dir = v.chosen p home ∧ isDirectory p.cwd dir t' = true := by
  rcases get_cases p v cwd with
    ⟨e, -, threw⟩ | ⟨home, found, ⟨free, t'', made, entries⟩ | ⟨-, e, t'', threw, -⟩⟩
  · simp [threw] at run
  · rw [made] at run
    cases run
    exact ⟨home, found, rfl, made_directory cwd free.1 entries⟩
  · simp [threw] at run

theorem get_there (found : homeDir p = .ok home) (there : isDirectory p.cwd (v.chosen p home) t = true) :
    v.get p t = .ok (v.chosen p home) t := by
  rw [BaseDir.chosen] at there ⊢
  rw [get_chosen found, getDir, Program.bind_ok (Program.read_run _ t), if_neg (not_not_intro there)]
  rfl

/-- Whatever was there before a run of the functions is there afterwards as it was. A call that has
returned returns the same path after all later calls, a directory, and changes nothing. -/
theorem base_dirs_stay (cwd : t.entry p.cwd = some .directory) :
    (∀ (vs : List BaseDir) place kind, t.entry place = some kind → (calls p vs t).entry place = some kind) ∧
    ∀ (v : BaseDir) dir t', v.get p t = .ok dir t' → ∀ vs,
      isDirectory p.cwd dir (calls p vs t') = true ∧
      v.get p (calls p vs t') = .ok dir (calls p vs t') := by
  refine ⟨fun vs place kind here => calls_keep vs cwd here, fun v dir t' run vs => ?_⟩
  obtain ⟨home, found, rfl, there⟩ := get_returned cwd run
  have cwd' : t'.entry p.cwd = some .directory := by
    obtain ⟨places, grows⟩ := @get_grows p t v cwd
    rw [run] at grows
    exact grows.keeps cwd
  obtain ⟨some_, all⟩ := (isDirectory_iff cwd').mp there
  have later : isDirectory p.cwd (v.chosen p home) (calls p vs t') = true := by
    rw [isDirectory_iff (calls_keep vs cwd' cwd')]
    exact ⟨some_, fun place member => calls_keep vs cwd' (all place member)⟩
  exact ⟨later, get_there found later⟩

end

/-- Only the root, and whatever is asked for may be created. -/
def emptyTree : Tree where
  entry place := if place = [] then some .directory else none
  root := rfl
  within := by simp

def user : Process where
  getenv name := if name = "HOME" then some "/u".toList else none
  userEntry := .missing
  cwd := []
  permits _ := true

theorem open_emptyTree (place : Place) : emptyTree.Open user.permits place := by
  by_cases root : place = []
  · exact .inl (if_pos root)
  · exact .inr ⟨if_neg root, rfl⟩

theorem user_home : homeDir user = .ok "/u".toList := by decide

/-- The data directory is made below the home directory, with the directories on the way. -/
theorem base_dir_created_user : ∃ t', dataDir user emptyTree = .ok "/u/.local/share".toList t' ∧
    t'.entry ["share".toList, ".local".toList, "u".toList] = some .directory := by
  obtain ⟨-, housed⟩ := base_dir_created user .data (t := emptyTree) (by decide)
  obtain ⟨t', run, -, entries⟩ := (housed "/u".toList user_home).1
    ⟨by decide, fun place _ => open_emptyTree place⟩
  exact ⟨t', run, (entries _).trans (if_pos (by decide))⟩

/-- The data directory is the same after the others have been asked for. -/
theorem base_dirs_stay_user : ∃ t', dataDir user emptyTree = .ok "/u/.local/share".toList t' ∧
    dataDir user (calls user [.state, .config] t') =
      .ok "/u/.local/share".toList (calls user [.state, .config] t') := by
  have cwd : emptyTree.entry user.cwd = some .directory := by decide
  have free : Free user emptyTree (BaseDir.data.chosen user "/u".toList) :=
    ⟨by decide, fun place _ => open_emptyTree place⟩
  obtain ⟨t', run⟩ : ∃ t', BaseDir.data.get user emptyTree = .ok "/u/.local/share".toList t' := by
    rcases get_cases user .data cwd with ⟨e, none, -⟩ | ⟨home, found, cases⟩
    · rw [user_home] at none
      contradiction
    · obtain rfl := Except.ok.inj (user_home.symm.trans found)
      rcases cases with ⟨-, t', run, -⟩ | ⟨shut, -⟩
      · exact ⟨t', run⟩
      · exact absurd free shut
  exact ⟨t', run, ((base_dirs_stay cwd).2 .data _ t' run _).2⟩

end Celestite.SysDirs
