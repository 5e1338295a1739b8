import Mathlib.Data.List.Infix
import Mathlib.Data.List.TakeWhile
import Celestite.Sequential.Scanf

/-!
# Memory information

`clst::get_mem_info` on Linux, from the lines of `/proc/meminfo`. A reading of zero counts as none.
-/

namespace Celestite.SysUtils
open Celestite.Sequential Celestite.Sequential.Scanf

structure RuntimeError where
  what : String
  deriving DecidableEq

structure MemoryInfo where
  total : ℕ
  available : ℕ
  deriving DecidableEq

abbrev Line := List Char

def totalFormat : Line := "MemTotal: %lu kB".toList

def availFormat : Line := "MemAvailable: %lu kB".toList

/-- The loop, with the values of `total` and `avail` before the next line. -/
def readLines : List Line → ℕ → ℕ → ℕ × ℕ
  | [], total, avail => (total, avail)
  | line :: lines, total, avail =>
    if total = 0 ∨ avail = 0 then
      match (if total = 0 then sscanf line totalFormat else none) with
      | some n => readLines lines n avail
      | none =>
        match (if avail = 0 then sscanf line availFormat else none) with
        | some n => readLines lines total n
        | none => readLines lines total avail
    else (total, avail)

/-- `none` where the file cannot be opened. -/
def getMemInfo : Option (List Line) → Except RuntimeError MemoryInfo
  | none => .error ⟨"Cannot open /proc/meminfo"⟩
  | some lines =>
    let (total, avail) := readLines lines 0 0
    if total = 0 ∨ avail = 0 then .error ⟨"Error parsing /proc/meminfo"⟩
    else .ok ⟨total * 1024 % 2 ^ 64, avail * 1024 % 2 ^ 64⟩

def totalKey : Line := "MemTotal:".toList

def availKey : Line := "MemAvailable:".toList

/-- The key, blanks and a decimal number of kB. -/
def Entry (key : Line) (n : ℕ) (line : Line) : Prop :=
  ∃ blanks digits, line = key ++ (blanks ++ digits ++ " kB".toList) ∧ blanks.all isSpace = true ∧
    digits ≠ [] ∧ digits.all Char.isDigit = true ∧ Decimal.value digits = n

/-- One line for each key, in either order, among lines with other keys. -/
def Listing (t a : ℕ) (lines : List Line) : Prop :=
  ∃ before between after total avail, Entry totalKey t total ∧ Entry availKey a avail ∧
    (∀ line ∈ before ++ between ++ after, ¬totalKey <+: line ∧ ¬availKey <+: line) ∧
    (lines = before ++ total :: (between ++ avail :: after) ∨
      lines = before ++ avail :: (between ++ total :: after))

/-- The first number but zero that is read from a line. -/
def found (format : Line) (lines : List Line) : ℕ :=
  (lines.findSome? fun line => (sscanf line format).filter (· ≠ 0)).getD 0

section
variable {format line : Line} {lines before after : List Line} {key : Line} {total avail n t a : ℕ}

theorem found_cons : found format (line :: lines) =
    match sscanf line format with
    | some n => if n = 0 then found format lines else n
    | none => found format lines := by
  unfold found
  rw [List.findSome?_cons]
  cases sscanf line format with
  | none => rfl
  | some n =>
    by_cases zero : n = 0
    · simp [zero, Option.filter]
    · simp [zero, Option.filter]

theorem found_eq_zero : found format lines = 0 ↔
    ∀ line ∈ lines, ∀ n, sscanf line format = some n → n = 0 := by
  induction lines with
  | nil => exact ⟨fun _ _ mem => absurd mem List.not_mem_nil, fun _ => rfl⟩
  | cons line lines ih =>
    rw [found_cons, List.forall_mem_cons, ← ih]
    cases sscanf line format with
    | none => simp
    | some n =>
      by_cases zero : n = 0
      · simp [zero]
      · simp [zero]

theorem found_none (nothing : ∀ line ∈ lines, sscanf line format = none) : found format lines = 0 := by
  rw [found_eq_zero]
  intro line mem n reads
  rw [nothing line mem] at reads
  cases reads

/-- Lines without a number are passed over. -/
theorem found_append (nothing : ∀ line ∈ before, sscanf line format = none) :
    found format (before ++ lines) = found format lines := by
  induction before with
  | nil => rfl
  | cons line before ih =>
    rw [List.cons_append, found_cons, nothing line (.head _)]
    exact ih fun other mem => nothing other (.tail _ mem)

theorem found_single (nothing : ∀ line ∈ before ++ after, sscanf line format = none)
    (read : sscanf line format = some n) : found format (before ++ line :: after) = n := by
  have last : found format after = 0 := found_none fun other mem => nothing other (List.mem_append_right _ mem)
  rw [found_append fun other mem => nothing other (List.mem_append_left _ mem), found_cons, read]
  by_cases zero : n = 0
  · simp [zero, last]
  · simp [zero]

theorem totalFormat_eq : directives totalFormat =
    totalKey.map .char ++ .space :: .lu :: directives " kB".toList := by decide

theorem availFormat_eq : directives availFormat =
    availKey.map .char ++ .space :: .lu :: directives " kB".toList := by decide

/-- No line has both keys. -/
theorem sscanf_avail (read : sscanf line totalFormat = some n) : sscanf line availFormat = none := by
  by_contra both
  obtain ⟨m, read'⟩ := Option.ne_none_iff_exists'.mp both
  unfold sscanf at read read'
  rw [totalFormat_eq] at read
  rw [availFormat_eq] at read'
  have short := List.prefix_of_prefix_length_le (prefix_of_scan read) (prefix_of_scan read') (by decide)
  exact absurd short (by decide)

/-- Each of the two stays at its first number but zero. -/
theorem readLines_eq : readLines lines total avail =
    (if total = 0 then found totalFormat lines else total,
      if avail = 0 then found availFormat lines else avail) := by
  induction lines generalizing total avail with
  | nil =>
    by_cases noTotal : total = 0 <;> by_cases noAvail : avail = 0 <;> simp [readLines, found, noTotal, noAvail]
  | cons line lines ih =>
    rw [readLines, found_cons, found_cons]
    by_cases noTotal : total = 0
    · cases reads : sscanf line totalFormat with
      | some n => simp [noTotal, ih, sscanf_avail reads]
      | none =>
        by_cases noAvail : avail = 0
        · cases reads' : sscanf line availFormat with
          | some n => simp [noTotal, noAvail, ih]
          | none => simp [noTotal, noAvail, ih]
        · simp [noTotal, noAvail, ih]
    · by_cases noAvail : avail = 0
      · cases reads' : sscanf line availFormat with
        | some n => simp [noTotal, noAvail, ih]
        | none => simp [noTotal, noAvail, ih]
      · simp [noTotal, noAvail]

/-- What an entry holds is what is read from its line. -/
theorem sscanf_entry (keyed : directives format = key.map .char ++ .space :: .lu :: directives " kB".toList)
    (plain : '\x00' ∉ key) (entry : Entry key n line) (small : n < 2 ^ 64) : sscanf line format = some n := by
  obtain ⟨blanks, digits, rfl, spaces, ne, all, rfl⟩ := entry
  rw [List.all_eq_true] at spaces all
  have whole : '\x00' ∉ key ++ (blanks ++ digits ++ " kB".toList) := by
    simp only [List.mem_append, not_or]
    refine ⟨plain, ⟨?_, ?_⟩, by decide⟩
    · intro mem
      exact absurd (spaces _ mem) (by decide)
    · intro mem
      exact absurd (all _ mem) (by decide)
  rw [sscanf, List.takeWhile_eq_self_iff.mpr, keyed, scan_key_append]
  · apply scan_number spaces ne all _ small
    simp
  · intro c mem
    rw [decide_eq_true_iff]
    rintro rfl
    exact whole mem

theorem sscanf_other (keyed : directives format = key.map .char ++ .space :: .lu :: directives " kB".toList)
    (other : ¬key <+: line) : sscanf line format = none := by
  by_contra reads
  obtain ⟨n, reads⟩ := Option.ne_none_iff_exists'.mp reads
  rw [sscanf, keyed] at reads
  exact other ((prefix_of_scan reads).trans (List.takeWhile_prefix _))

theorem mem_info_eq : getMemInfo (some lines) =
    if found totalFormat lines = 0 ∨ found availFormat lines = 0 then .error ⟨"Error parsing /proc/meminfo"⟩
    else .ok ⟨found totalFormat lines * 1024 % 2 ^ 64, found availFormat lines * 1024 % 2 ^ 64⟩ := by
  simp only [getMemInfo, readLines_eq, ↓reduceIte]

theorem mem_info_throws_iff : getMemInfo (some lines) = .error ⟨"Error parsing /proc/meminfo"⟩ ↔
    (∀ line ∈ lines, ∀ n, sscanf line totalFormat = some n → n = 0) ∨
      ∀ line ∈ lines, ∀ n, sscanf line availFormat = some n → n = 0 := by
  rw [mem_info_eq, ← found_eq_zero, ← found_eq_zero]
  by_cases missing : found totalFormat lines = 0 ∨ found availFormat lines = 0
  · simp [missing]
  · simp [missing]

theorem found_listing (listing : Listing t a lines) (smallTotal : t < 2 ^ 64) (smallAvail : a < 2 ^ 64) :
    found totalFormat lines = t ∧ found availFormat lines = a := by
  obtain ⟨before, between, after, total, avail, isTotal, isAvail, others, order⟩ := listing
  have readTotal := sscanf_entry totalFormat_eq (by decide) isTotal smallTotal
  have readAvail := sscanf_entry availFormat_eq (by decide) isAvail smallAvail
  have notAvail := sscanf_avail readTotal
  have notTotal : sscanf avail totalFormat = none := by
    cases reads : sscanf avail totalFormat with
    | none => rfl
    | some n => simp [sscanf_avail reads] at readAvail
  have noTotal : ∀ line ∈ before ++ between ++ after, sscanf line totalFormat = none :=
    fun line mem => sscanf_other totalFormat_eq (others line mem).1
  have noAvail : ∀ line ∈ before ++ between ++ after, sscanf line availFormat = none :=
    fun line mem => sscanf_other availFormat_eq (others line mem).2
  have regroup (first second : Line) : before ++ first :: (between ++ second :: after) =
      (before ++ first :: between) ++ second :: after := by simp
  rcases order with rfl | rfl
  · constructor
    · apply found_single _ readTotal
      grind
    · rw [regroup]
      apply found_single _ readAvail
      grind
  · constructor
    · rw [regroup]
      apply found_single _ readTotal
      grind
    · apply found_single _ readAvail
      grind

/-- From every listing with both lines, its two numbers in bytes, but not where one is 0. The call throws
just where one of the two has no reading but 0. -/
theorem mem_info_read :
    (∀ t a lines, Listing t a lines → 1024 * t < 2 ^ 64 → 1024 * a < 2 ^ 64 → getMemInfo (some lines) =
      if t = 0 ∨ a = 0 then .error ⟨"Error parsing /proc/meminfo"⟩ else .ok ⟨1024 * t, 1024 * a⟩) ∧
    (∀ lines, getMemInfo (some lines) = .error ⟨"Error parsing /proc/meminfo"⟩ ↔
      (∀ line ∈ lines, ∀ n, sscanf line totalFormat = some n → n = 0) ∨
        ∀ line ∈ lines, ∀ n, sscanf line availFormat = some n → n = 0) ∧
    ∀ lines, (∀ line ∈ lines, ¬totalKey <+: line) ∨ (∀ line ∈ lines, ¬availKey <+: line) →
      getMemInfo (some lines) = .error ⟨"Error parsing /proc/meminfo"⟩ := by
  refine ⟨?_, ?_, ?_⟩
  · intro t a lines listing smallTotal smallAvail
    obtain ⟨total, avail⟩ := found_listing listing (by omega) (by omega)
    rw [mem_info_eq, total, avail, Nat.mul_comm t, Nat.mul_comm a, Nat.mod_eq_of_lt smallTotal,
      Nat.mod_eq_of_lt smallAvail]
  · intro lines
    exact mem_info_throws_iff
  · intro lines missing
    rw [mem_info_eq]
    apply if_pos
    apply missing.imp
    · intro none
      exact found_none fun line mem => sscanf_other totalFormat_eq (none line mem)
    · intro none
      exact found_none fun line mem => sscanf_other availFormat_eq (none line mem)

theorem mem_info_read_other : getMemInfo (some ["MemFree: 3 kB".toList, "MemAvailable: 5 kB".toList,
    "MemTotal:  16 kB".toList]) = .ok ⟨16384, 5120⟩ :=
  mem_info_read.1 16 5 _ ⟨["MemFree: 3 kB".toList], [], [], _, _,
    ⟨[' ', ' '], ['1', '6'], rfl, by decide, by decide, by decide, rfl⟩,
    ⟨[' '], ['5'], rfl, by decide, by decide, by decide, rfl⟩, by decide, .inr rfl⟩ (by decide) (by decide)

/-- A legal reading of 0 is refused. -/
theorem zero_refused : ¬∀ t a lines, Listing t a lines → 1024 * t < 2 ^ 64 → 1024 * a < 2 ^ 64 →
    getMemInfo (some lines) = .ok ⟨1024 * t, 1024 * a⟩ := by
  intro all
  have read := all 8 0 ["MemTotal: 8 kB".toList, "MemAvailable: 0 kB".toList]
    ⟨[], [], [], _, _, ⟨[' '], ['8'], rfl, by decide, by decide, by decide, rfl⟩,
      ⟨[' '], ['0'], rfl, by decide, by decide, by decide, rfl⟩, by simp, .inl rfl⟩ (by decide) (by decide)
  have refused : getMemInfo (some ["MemTotal: 8 kB".toList, "MemAvailable: 0 kB".toList]) =
      .error ⟨"Error parsing /proc/meminfo"⟩ := by
    rw [mem_info_eq]
    decide
  rw [refused] at read
  cases read

end
end Celestite.SysUtils
