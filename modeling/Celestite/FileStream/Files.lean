import Mathlib.Logic.Equiv.Basic
import Celestite.FileStream.Contents
import Celestite.FileStream.Handles

/-!
# Files on one disk

Streams of a population that have files of one disk open. What is written is in the stream's buffer
until the file is closed: by `close`, by the destructor or by a move to the stream.
-/

namespace Celestite.BinaryFileStream
open Concurrency Celestite.Sequential
open Stdio (File Disk)

/-- The methods that pass on to the C library. -/
inductive Method where
  | read (n : ℕ)
  | getc
  | ungetc (ch : Option UInt8)
  | putc (ch : UInt8)
  | write (data : List UInt8)
  | seek (offset : ℤ) (origin : SeekFrom)
  | tell

inductive Answer where
  | bytes (data : List UInt8)
  | char (ch : Option UInt8)
  | position (n : ℤ)
  | nothing
  deriving DecidableEq

namespace Method

def run : Method → Op Answer
  | read n => do return .bytes (← BinaryFileStream.read n)
  | getc => do return .char (← BinaryFileStream.getc)
  | ungetc ch => do return .char (← BinaryFileStream.ungetc ch)
  | putc ch => do
    BinaryFileStream.putc ch
    return .nothing
  | write data => do
    BinaryFileStream.write data
    return .nothing
  | seek offset origin => do
    BinaryFileStream.seek offset origin
    return .nothing
  | tell => do return .position (← BinaryFileStream.tell)

def writes : Method → Bool
  | putc _ | write _ => true
  | _ => false

end Method

/-! ### What a call keeps -/

/-- A call leaves the stream its file, and the bytes as they were unless it writes. -/
def Keeps {α : Type} (b : BinaryFileStream File) (f : File) (writes : Bool) :
    Outcome (BinaryFileStream File) IoError Misuse α → Prop
  | .ok _ b' | .threw _ b' =>
    ∃ f', b' = { b with fp := some f' } ∧ f'.name = f.name ∧ (writes = false → f'.bytes = f.bytes)
  | .undefined _ => True

section
variable {α β : Type} {b : BinaryFileStream File} {f f' : File} {w : Bool} {n : ℕ} {data : List UInt8}

theorem fread_file : (f.fread n).2.name = f.name ∧ (f.fread n).2.bytes = f.bytes := by
  unfold File.fread
  split <;> exact ⟨rfl, rfl⟩

theorem fwrite_name : (f.fwrite data).2.name = f.name := by
  unfold File.fwrite
  split <;> rfl

theorem fseek_file {offset : ℤ} {whence : Stdio.Whence} (sought : f.fseek offset whence = some f') :
    f'.name = f.name ∧ f'.bytes = f.bytes := by
  unfold File.fseek at sought
  dsimp only at sought
  split_ifs at sought
  obtain rfl := Option.some.inj sought
  exact ⟨rfl, rfl⟩

theorem keeps_same (held : b.fp = some f) (a : α) : Keeps b f w ((pure a : Op α) b) :=
  ⟨f, by rw [← held], rfl, fun _ => rfl⟩

theorem keeps_required {P : Prop} [Decidable P] {x : Misuse} {p : Op α} (rest : P → Keeps b f w (p b)) :
    Keeps b f w ((Program.require P x >>= fun _ => p) b) := by
  by_cases holds : P
  · rw [Program.bind_ok (Program.require_run holds)]
    exact rest holds
  · have undefined : Program.require P x b = (.undefined x : Outcome (BinaryFileStream File) IoError Misuse Unit) :=
      if_neg holds
    rw [Program.bind_undefined undefined]
    trivial

/-- After the call of the C library a method returns or throws. -/
theorem keeps_returned {P : Prop} [Decidable P] {a : α} {e : IoError} (named : f'.name = f.name)
    (same : w = false → f'.bytes = f.bytes) :
    Keeps b f w ((keep f' >>= fun _ => if P then pure a else Program.throw e) b) := by
  rw [keep, Program.bind_ok (Program.update_run _ b)]
  split_ifs <;> exact ⟨f', rfl, named, same⟩

theorem Keeps.answered {p : Op α} (keeps : Keeps b f w (p b)) (g : α → β) :
    Keeps b f w ((p >>= fun a => pure (g a)) b) := by
  rw [Program.bind_run]
  generalize p b = r at keeps
  cases r with
  | ok | threw => exact keeps
  | undefined => trivial

theorem Method.run_keeps (held : b.fp = some f) (m : Method) : Keeps b f m.writes (m.run b) := by
  have found := file_run held
  cases m with
  | read n =>
    apply Keeps.answered
    rw [BinaryFileStream.read, Program.bind_ok found]
    by_cases nothing : n = 0
    · rw [if_pos nothing]
      exact keeps_same held _
    · rw [if_neg nothing]
      exact keeps_required fun _ => keeps_returned fread_file.1 fun _ => fread_file.2
  | getc =>
    apply Keeps.answered
    rw [BinaryFileStream.getc, Program.bind_ok found]
    refine keeps_required fun _ => ?_
    rw [keep, Program.bind_ok (Program.update_run _ b)]
    split_ifs <;> exact ⟨_, rfl, fread_file.1, fun _ => fread_file.2⟩
  | ungetc ch =>
    apply Keeps.answered
    rw [BinaryFileStream.ungetc, Program.bind_ok found]
    cases ch with
    | none => exact keeps_same held _
    | some byte => exact keeps_required fun _ => ⟨f.ungetc byte, rfl, rfl, fun _ => rfl⟩
  | putc ch =>
    refine Keeps.answered ?_ fun _ => Answer.nothing
    rw [BinaryFileStream.putc, Program.bind_ok found]
    exact keeps_required fun _ => keeps_returned fwrite_name fun reads => Bool.noConfusion reads
  | write data =>
    refine Keeps.answered ?_ fun _ => Answer.nothing
    rw [BinaryFileStream.write, Program.bind_ok found]
    by_cases nothing : data = []
    · rw [if_pos nothing]
      exact keeps_same held _
    · rw [if_neg nothing]
      exact keeps_required fun _ => keeps_returned fwrite_name fun reads => Bool.noConfusion reads
  | seek offset origin =>
    refine Keeps.answered ?_ fun _ => Answer.nothing
    rw [BinaryFileStream.seek, Program.bind_ok found]
    cases sought : f.fseek offset (whence origin) with
    | none => exact ⟨f, by rw [← held], rfl, fun _ => rfl⟩
    | some f' => exact ⟨f', rfl, (fseek_file sought).1, fun _ => (fseek_file sought).2⟩
  | tell =>
    apply Keeps.answered
    rw [BinaryFileStream.tell, Program.bind_ok found]
    exact keeps_required fun _ => keeps_same held _

theorem Method.run_shut (shut : b.fp = none) (m : Method) : ∃ x, m.run b = .undefined x := by
  obtain ⟨fp, fileSize⟩ := b
  obtain rfl : fp = none := shut
  refine ⟨.notOpen, ?_⟩
  cases m <;> rfl

end

/-! ### Files -/

/-- Where the bytes of a file are while a stream has it open. -/
structure Backing where
  /-- The file that a call finds. -/
  fetch : Disk → File → File
  /-- The disk when the call returns. -/
  store : Disk → File → Disk
  fclose : Disk → File → Disk

/-- They are in the stream, and `fclose` writes them. -/
def Backing.buffered : Backing where
  fetch _ f := f
  store disk _ := disk
  fclose := Disk.fclose

/-- They are on the disk. -/
def Backing.direct : Backing where
  fetch disk f := { f with bytes := (disk f.name).getD [] }
  store := Disk.fclose
  fclose disk _ := disk

structure Files (O : Type) where
  objects : O → Option (BinaryFileStream File) := fun _ => none
  disk : Disk

namespace Files

inductive Act (O : Type) where
  | construct (this : O)
  | open_ (this : O) (name : String) (mode : FileStreamMode) (start : ℕ)
  | close (this : O)
  | moveConstruct (this rhs : O)
  | moveAssign (this rhs : O)
  | destroy (this : O)
  | call (this : O) (m : Method)

section
variable {O : Type} [DecidableEq O] (back : Backing) (s : Files O) (this rhs : O)

def put (b : Option (BinaryFileStream File)) : Files O := { s with objects := Function.update s.objects this b }

def construct : Option (Files O) := if (s.objects this).isNone then some (s.put this (some {})) else none

def open_ (name : String) (mode : FileStreamMode) (start : ℕ) : Option (Files O) := do
  let b ← s.objects this
  let opened := b.openOn s.disk name mode start
  return { s.put this (some opened.2.1) with disk := opened.2.2 }

def close : Option (Files O) := do
  let b ← s.objects this
  return { s.put this (some b.close.2.1) with disk := b.fp.elim s.disk (back.fclose s.disk) }

/-- `fp_ = rhs.fp_; file_size_ = rhs.file_size_; rhs.fp_ = nullptr;` -/
def take : Option (Files O) := do
  let source ← s.objects rhs
  let s := s.put this (some { fp := source.fp, fileSize := source.fileSize })
  let source ← s.objects rhs
  return s.put rhs (some { source with fp := none })

def moveConstruct : Option (Files O) := if (s.objects this).isNone then s.take this rhs else none

def moveAssign : Option (Files O) := do
  let s ← s.close back this
  s.take this rhs

/-- `if (fp_) fclose(fp_);` -/
def destroy : Option (Files O) := do
  let b ← s.objects this
  return { s.put this none with disk := b.fp.elim s.disk (back.fclose s.disk) }

end

/-- What a call returns or throws. -/
def answer {O : Type} (back : Backing) (s : Files O) (this : O) (m : Method) :
    Option (Outcome (BinaryFileStream File) IoError Misuse Answer) :=
  (s.objects this).map fun b => m.run { b with fp := b.fp.map (back.fetch s.disk) }

section
variable {O : Type} [DecidableEq O] (back : Backing)

/-- Nothing comes after a call that is undefined. -/
def call (s : Files O) (this : O) (m : Method) : Option (Files O) :=
  match s.answer back this m with
  | some (.ok _ b) | some (.threw _ b) =>
    some { s.put this (some b) with disk := b.fp.elim s.disk (back.store s.disk) }
  | _ => none

def lts (disk : Disk) : Lts (Files O) (Act O) where
  init := { disk := disk }
  step s
    | .construct this => s.construct this
    | .open_ this name mode start => s.open_ this name mode start
    | .close this => s.close back this
    | .moveConstruct this rhs => s.moveConstruct this rhs
    | .moveAssign this rhs => s.moveAssign back this rhs
    | .destroy this => s.destroy back this
    | .call this m => s.call back this m

end

/-- The files that the streams have open. -/
def held {O : Type} (s : Files O) : O → Option File := holding fp s.objects

/-- No file is opened that a stream has open. -/
def Allowed {O : Type} (s : Files O) : Act O → Prop
  | .open_ this name _ _ => s.held this = none → ∀ o f, s.held o = some f → f.name ≠ name
  | _ => True

/-! ### The two disks -/

/-- No two streams have one file open. -/
def Distinct {O : Type} (h : O → Option File) : Prop :=
  ∀ ⦃o o' f f'⦄, h o = some f → h o' = some f' → f.name = f'.name → o = o'

/-- The second disk has the bytes that the streams have for the files they have open. -/
structure Level {O : Type} (h : O → Option File) (disk disk' : Disk) : Prop where
  distinct : Distinct h
  current : ∀ {o f}, h o = some f → disk' f.name = some f.bytes
  others : ∀ {name}, (∀ o f, h o = some f → f.name ≠ name) → disk' name = disk name

section
variable {O : Type} {h : O → Option File} {disk disk' : Disk} {o : O} {f f' : File} {name : String} {mode : Stdio.Mode}
  {start : ℕ}

theorem fopen_other {other : String} (apart : other ≠ name) : (disk.fopen name mode start).2 other = disk other := by
  unfold Disk.fopen
  cases mode.kind with
  | read => cases disk name <;> rfl
  | write => exact Function.update_of_ne apart _ _
  | append => exact Function.update_of_ne apart _ _

theorem fopen_some (opened : (disk.fopen name mode start).1 = some f) :
    f.name = name ∧ (disk.fopen name mode start).2 name = some f.bytes := by
  unfold Disk.fopen at opened ⊢
  cases kind : mode.kind with
  | read =>
    cases there : disk name with
    | none => simp [kind, there] at opened
    | some bytes =>
      simp only [kind, there, Option.some.injEq] at opened
      subst opened
      exact ⟨rfl, there⟩
  | write =>
    simp only [kind, Option.some.injEq] at opened
    subst opened
    exact ⟨rfl, Function.update_self name _ _⟩
  | append =>
    simp only [kind, Option.some.injEq] at opened
    subst opened
    exact ⟨rfl, Function.update_self name _ _⟩

theorem fopen_none (refused : (disk.fopen name mode start).1 = none) : (disk.fopen name mode start).2 = disk := by
  unfold Disk.fopen at refused ⊢
  cases kind : mode.kind with
  | read => cases there : disk name <;> rfl
  | write | append => simp [kind] at refused

theorem fopen_congr (same : disk' name = disk name) :
    (disk'.fopen name mode start).1 = (disk.fopen name mode start).1 := by
  unfold Disk.fopen
  rw [same]
  cases mode.kind with
  | read => cases disk name <;> rfl
  | write | append => rfl

/-- It does not matter which stream has a file open. -/
theorem Level.exchange (level : Level h disk disk') (e : O ≃ O) : Level (h ∘ e) disk disk' where
  distinct _ _ _ _ first second same := e.injective (level.distinct first second same)
  current := level.current
  others free := level.others fun o f held => by
    apply free (e.symm o) f
    rw [Function.comp_apply, e.apply_symm_apply, held]

variable [DecidableEq O]

theorem Distinct.update {r : Option File} (distinct : Distinct h)
    (apart : ∀ f, r = some f → ∀ o' f', o' ≠ o → h o' = some f' → f'.name ≠ f.name) :
    Distinct (Function.update h o r) := by
  intro o₁ o₂ f₁ f₂ first second same
  rcases update_cases first with ⟨one, new⟩ | ⟨other, first⟩
  · rcases update_cases second with ⟨two, -⟩ | ⟨other, second⟩
    · rw [one, two]
    · exact absurd same.symm (apart _ new _ _ other second)
  · rcases update_cases second with ⟨-, new⟩ | ⟨-, second⟩
    · exact absurd same (apart _ new _ _ other first)
    · exact distinct first second same

theorem taken_exchange (o o' : O) :
    Function.update (Function.update h o (h o')) o' none = Function.update h o none ∘ Equiv.swap o o' := by
  funext o₁
  by_cases gave : o₁ = o'
  · simp [gave]
  · by_cases took : o₁ = o
    · simp [took, Function.update_of_ne (took ▸ gave), Function.update_of_ne (Ne.symm (took ▸ gave))]
    · simp [gave, took, Equiv.swap_apply_of_ne_of_ne took gave]

theorem Level.closed (level : Level h disk disk') (o : O) :
    Level (Function.update h o none) ((h o).elim disk disk.fclose) disk' := by
  refine ⟨level.distinct.update nofun, fun held => ?_, fun {name} free => ?_⟩
  · rcases update_cases held with ⟨-, gone⟩ | ⟨-, held⟩
    · contradiction
    · exact level.current held
  · have free' : ∀ o' f, o' ≠ o → h o' = some f → f.name ≠ name := fun o' f other held =>
      free o' f ((Function.update_of_ne other _ _).trans held)
    cases closes : h o with
    | none =>
      refine level.others fun o' f held => free' o' f ?_ held
      rintro rfl
      rw [closes] at held
      contradiction
    | some f =>
      by_cases same : name = f.name
      · have written : disk.fclose f name = some f.bytes := same ▸ Function.update_self f.name _ _
        rw [Option.elim_some, written, same]
        exact level.current closes
      · have kept : disk.fclose f name = disk name := Function.update_of_ne same _ _
        rw [Option.elim_some, kept]
        refine level.others fun o' f' held => ?_
        by_cases closing : o' = o
        · rw [closing, closes] at held
          obtain rfl := Option.some.inj held
          exact Ne.symm same
        · exact free' o' f' closing held

theorem Level.opened (level : Level h disk disk') (shut : h o = none) (free : ∀ o f, h o = some f → f.name ≠ name) :
    Level (Function.update h o (disk.fopen name mode start).1) (disk.fopen name mode start).2
      (disk'.fopen name mode start).2 := by
  have alike := @fopen_congr disk disk' name mode start (level.others free)
  cases opened : (disk.fopen name mode start).1 with
  | none =>
    rw [fopen_none opened, fopen_none (alike.trans opened), ← shut, Function.update_eq_self]
    exact level
  | some f =>
    obtain ⟨named, -⟩ := fopen_some opened
    obtain ⟨-, there⟩ := fopen_some (alike.trans opened)
    refine ⟨level.distinct.update ?_, fun held => ?_, fun {other} free' => ?_⟩
    · intro f new o' f' _ held
      obtain rfl := Option.some.inj new
      rw [named]
      exact free o' f' held
    · rcases update_cases held with ⟨-, new⟩ | ⟨-, held⟩
      · obtain rfl := Option.some.inj new
        rw [named]
        exact there
      · rw [fopen_other (free _ _ held)]
        exact level.current held
    · have apart : other ≠ name := by
        rintro rfl
        exact free' o f (Function.update_self o _ _) named
      rw [fopen_other apart, fopen_other apart]
      refine level.others fun o' f' held => free' o' f' ((Function.update_of_ne ?_ _ _).trans held)
      rintro rfl
      rw [shut] at held
      contradiction

/-- A stream takes over what another one has open. -/
theorem Level.taken (level : Level (Function.update h o none) disk disk') (o' : O) :
    Level (Function.update (Function.update h o (h o')) o' none) disk disk' := by
  rw [taken_exchange]
  exact level.exchange _

/-- A call changes the file that a stream has open. -/
theorem Level.stored (level : Level h disk disk') (held : h o = some f) (named : f'.name = f.name) :
    Level (Function.update h o (some f')) disk (disk'.fclose f') := by
  have apart : ∀ o₁ f₁, o₁ ≠ o → h o₁ = some f₁ → f₁.name ≠ f'.name := by
    intro o₁ f₁ other held₁ same
    exact other (level.distinct held₁ held (same.trans named))
  refine ⟨level.distinct.update ?_, fun there => ?_, fun {name} free => ?_⟩
  · intro f new
    obtain rfl := Option.some.inj new
    exact apart
  · rcases update_cases there with ⟨-, new⟩ | ⟨other, there⟩
    · obtain rfl := Option.some.inj new
      exact Function.update_self f'.name _ _
    · exact (Function.update_of_ne (apart _ _ other there) _ _).trans (level.current there)
  · have other : name ≠ f'.name := fun same => free o f' (Function.update_self o _ _) same.symm
    apply (Function.update_of_ne other _ _).trans
    refine level.others fun o₁ f₁ there => ?_
    by_cases this : o₁ = o
    · rw [this, held] at there
      obtain rfl := Option.some.inj there
      rw [← named]
      exact other.symm
    · exact free o₁ f₁ ((Function.update_of_ne this _ _).trans there)

end

/-! ### The two systems -/

/-- The streams are the same, and the second disk has what they hold. -/
structure Same {O : Type} (s t : Files O) : Prop where
  objects : t.objects = s.objects
  level : Level s.held s.disk t.disk

section
variable {O : Type} {s t : Files O} {this rhs : O} {b : BinaryFileStream File} {m : Method} {a : Act O}

theorem Same.fetched (same : Same s t) (here : s.objects this = some b) :
    b.fp.map (Backing.direct.fetch t.disk) = b.fp := by
  cases held : b.fp with
  | none => rfl
  | some f =>
    have current : t.disk f.name = some f.bytes := same.level.current ((holding_some here).trans held)
    simp only [Option.map_some, Backing.direct, current, Option.getD_some]

theorem Same.answer (same : Same s t) (this : O) (m : Method) :
    t.answer .direct this m = s.answer .buffered this m := by
  unfold Files.answer
  rw [same.objects]
  cases here : s.objects this with
  | none => rfl
  | some b =>
    have kept : b.fp.map (Backing.buffered.fetch s.disk) = b.fp := Option.map_id'
    rw [Option.map_some, Option.map_some, same.fetched here, kept]

/-- A call that returns or throws is one of an open stream. -/
theorem answer_keeps {r : Outcome (BinaryFileStream File) IoError Misuse Answer}
    (answered : s.answer .buffered this m = some r) (defined : ∀ x, r ≠ .undefined x) :
    ∃ b f, s.objects this = some b ∧ s.held this = some f ∧ Keeps b f m.writes r := by
  obtain ⟨b, here, rfl⟩ := Option.map_eq_some_iff.mp answered
  have kept : ({ b with fp := b.fp.map (Backing.buffered.fetch s.disk) } : BinaryFileStream File) = b :=
    congrArg (BinaryFileStream.mk · b.fileSize) Option.map_id'
  rw [kept] at defined ⊢
  rcases held : b.fp with _ | f
  · obtain ⟨x, undefined⟩ := m.run_shut held
    exact absurd undefined (defined x)
  · exact ⟨b, f, here, (holding_some here).trans held, m.run_keeps held⟩

variable [DecidableEq O]

theorem held_put (s : Files O) (this : O) (x : Option (BinaryFileStream File)) :
    (s.put this x).held = Function.update s.held this (x.bind fp) := holding_update fp s.objects this x

theorem Same.put (same : Same s t) {disk disk' : Disk} {x : Option (BinaryFileStream File)}
    (level : Level (Function.update s.held this (x.bind fp)) disk disk') :
    Same { s.put this x with disk := disk } { t.put this x with disk := disk' } where
  objects := by
    rw [Files.put, Files.put, same.objects]
  level := by
    have held := held_put s this x
    exact held.symm ▸ level

omit [DecidableEq O] in
theorem direct_closed (r : Option File) (disk : Disk) : r.elim disk (Backing.direct.fclose disk) = disk := by
  cases r <;> rfl

theorem Same.closed (same : Same s t) (here : s.objects this = some b) {x : Option (BinaryFileStream File)}
    (shut : x.bind fp = none) :
    Same { s.put this x with disk := b.fp.elim s.disk (Backing.buffered.fclose s.disk) }
      { t.put this x with disk := b.fp.elim t.disk (Backing.direct.fclose t.disk) } := by
  have held : s.held this = b.fp := holding_some here
  have closed := same.level.closed this
  rw [held] at closed
  rw [direct_closed]
  apply same.put
  rw [shut]
  exact closed

theorem Same.construct (same : Same s t) : Option.Rel Same (s.construct this) (t.construct this) := by
  unfold Files.construct
  rw [same.objects]
  split_ifs with free
  · have shut : s.held this = none := holding_none (Option.isNone_iff_eq_none.mp free)
    apply Option.Rel.some
    apply same.put
    rw [Option.bind_some, ← shut, Function.update_eq_self]
    exact same.level
  · exact .none

theorem Same.open_ (same : Same s t) {name : String} {mode : FileStreamMode} {start : ℕ}
    (allowed : Allowed s (.open_ this name mode start)) :
    Option.Rel Same (s.open_ this name mode start) (t.open_ this name mode start) := by
  unfold Files.open_
  rw [same.objects]
  cases here : s.objects this with
  | none => exact .none
  | some b =>
    have held : s.held this = b.fp := holding_some here
    apply Option.Rel.some
    cases shut : b.fp with
    | some f =>
      have refused (disk : Disk) : b.openOn disk name mode start = (false, b, disk) := if_pos (by simp [shut])
      rw [refused, refused]
      apply same.put
      rw [Option.bind_some, ← held, Function.update_eq_self]
      exact same.level
    | none =>
      have free := allowed (held.trans shut)
      have alike := @fopen_congr s.disk t.disk name mode.asked start (same.level.others free)
      have opened (disk : Disk) : (b.openOn disk name mode start).2 =
          ((b.open_ mode { file := (disk.fopen name mode.asked start).1, seeksEnd := true, length :=
            (((disk.fopen name mode.asked start).1.map (·.bytes.length)).getD 0 : ℕ) }).2,
          (disk.fopen name mode.asked start).2) := by
        unfold openOn
        rw [if_neg (by simp [shut])]
      rw [opened, opened, alike]
      apply same.put
      rw [Option.bind_some, open_fp shut]
      exact same.level.opened (held.trans shut) free

theorem Same.close (same : Same s t) : Option.Rel Same (s.close .buffered this) (t.close .direct this) := by
  unfold Files.close
  rw [same.objects]
  cases here : s.objects this with
  | none => exact .none
  | some b => exact .some (same.closed here (close_eq b).1)

theorem close_held {back : Backing} {s' : Files O} (closed : s.close back this = some s') : s'.held this = none := by
  obtain ⟨b, -, closed⟩ := Option.bind_eq_some_iff.mp closed
  obtain rfl := Option.some.inj closed
  exact (holding_some (Function.update_self this _ _)).trans (close_eq b).1

theorem Same.destroy (same : Same s t) : Option.Rel Same (s.destroy .buffered this) (t.destroy .direct this) := by
  unfold Files.destroy
  rw [same.objects]
  cases here : s.objects this with
  | none => exact .none
  | some b => exact .some (same.closed here rfl)

theorem Same.take (same : Same s t) (free : s.held this = none) :
    Option.Rel Same (s.take this rhs) (t.take this rhs) := by
  unfold Files.take
  rw [same.objects]
  cases there : s.objects rhs with
  | none => exact .none
  | some source =>
    obtain ⟨after, found⟩ : ∃ after, (s.put this (some { fp := source.fp, fileSize := source.fileSize })).objects rhs =
        some after := by
      rw [← Option.isSome_iff_exists]
      unfold Files.put
      dsimp only
      by_cases self : rhs = this
      · rw [self, Function.update_self]
        rfl
      · rw [Function.update_of_ne self, there]
        rfl
    have found' : (t.put this (some { fp := source.fp, fileSize := source.fileSize })).objects rhs = some after := by
      rw [← found, Files.put, Files.put, same.objects]
    simp only [Option.bind_eq_bind, Option.bind_some, found, found']
    refine .some ⟨?_, ?_⟩
    · simp only [Files.put, same.objects]
    · have moved := @holding_take _ _ _ _ fp s.objects this rhs { fp := source.fp, fileSize := source.fileSize }
        { after with fp := none } (holding_some there).symm rfl
      have empty : Function.update s.held this none = s.held := by rw [← free, Function.update_eq_self]
      have taken := @Level.taken _ s.held s.disk t.disk this _ (empty.symm ▸ same.level) rhs
      change Level (holding fp (Function.update (Function.update s.objects this _) rhs _)) s.disk t.disk
      rw [moved]
      exact taken

theorem Same.call (same : Same s t) : Option.Rel Same (s.call .buffered this m) (t.call .direct this m) := by
  unfold Files.call
  rw [same.answer]
  cases answered : s.answer .buffered this m with
  | none => exact .none
  | some r =>
    cases r with
    | undefined => exact .none
    | ok _ b' | threw _ b' =>
      obtain ⟨b, f, -, held, f', rfl, named, -⟩ := answer_keeps answered nofun
      exact .some (same.put (same.level.stored held named))

theorem Same.step {disk disk' : Disk} (same : Same s t) (allowed : Allowed s a) :
    Option.Rel Same ((lts .buffered disk).step s a) ((lts .direct disk').step t a) := by
  cases a with
  | construct this => exact same.construct
  | open_ this name mode start => exact same.open_ allowed
  | close this => exact same.close
  | moveConstruct this rhs =>
    simp only [lts, Files.moveConstruct, same.objects]
    split_ifs with free
    · exact same.take (holding_none (Option.isNone_iff_eq_none.mp free))
    · exact .none
  | moveAssign this rhs =>
    have closed := @Same.close _ _ _ this _ same
    simp only [lts, Files.moveAssign]
    generalize left : s.close .buffered this = x, t.close .direct this = y at closed ⊢
    cases closed with
    | none => exact .none
    | some after => exact after.take (close_held left)
  | destroy this => exact same.destroy
  | call this m => exact same.call

omit [DecidableEq O] in
theorem Same.allowed_iff (same : Same s t) : Allowed t a ↔ Allowed s a := by
  have held : t.held = s.held := congrArg (holding fp) same.objects
  cases a with
  | open_ => simp only [Allowed, held]
  | _ => rfl

end

/-- The steps that may change the file with this name. -/
def Act.Changes {O : Type} (s : Files O) (name : String) : Act O → Prop
  | .open_ _ opened mode _ => opened = name ∧ mode.asked.kind ≠ .read
  | .call this m => m.writes = true ∧ ∃ f, s.held this = some f ∧ f.name = name
  | _ => False

/-- The streams and the results of their calls are the same, and so are the files, where those that a stream
has open are as they are there. -/
structure Agree {O : Type} (s t : Files O) : Prop where
  objects : t.objects = s.objects
  answers : ∀ this m, t.answer .direct this m = s.answer .buffered this m
  opened : ∀ o f, s.held o = some f → t.disk f.name = some f.bytes
  others : ∀ name, (∀ o f, s.held o = some f → f.name ≠ name) → t.disk name = s.disk name

section
variable {O : Type} {s s' t t' : Files O} {as : List (Act O)} {a : Act O} {disk disk' : Disk} {name : String}
  {this rhs : O} {m : Method} {mode : FileStreamMode} {start : ℕ}

theorem Same.agree (same : Same s t) : Agree s t :=
  ⟨same.objects, same.answer, fun _ _ => same.level.current, fun _ => same.level.others⟩

variable [DecidableEq O]

theorem init_same (disk : Disk) : Same (@lts O _ .buffered disk).init (lts .direct disk).init where
  objects := rfl
  level := ⟨nofun, nofun, fun _ => rfl⟩

theorem take_disk (taken : t.take this rhs = some t') : t'.disk = t.disk := by
  obtain ⟨source, -, taken⟩ := Option.bind_eq_some_iff.mp taken
  obtain ⟨after, -, taken⟩ := Option.bind_eq_some_iff.mp taken
  obtain rfl := Option.some.inj taken
  rfl

theorem close_disk (closed : t.close .direct this = some t') : t'.disk = t.disk := by
  obtain ⟨b, -, closed⟩ := Option.bind_eq_some_iff.mp closed
  obtain rfl := Option.some.inj closed
  exact direct_closed _ _

theorem open_changes {opened : String} (taken : t.open_ this opened mode start = some t')
    (changed : t'.disk name ≠ t.disk name) : opened = name ∧ mode.asked.kind ≠ .read := by
  obtain ⟨b, -, taken⟩ := Option.bind_eq_some_iff.mp taken
  obtain rfl := Option.some.inj taken
  unfold openOn at changed
  split_ifs at changed with isOpen
  · exact absurd rfl changed
  · constructor
    · by_contra apart
      exact changed (fopen_other (Ne.symm apart))
    · intro reads
      apply changed
      unfold Disk.fopen
      rw [reads]
      cases there : t.disk opened <;> rfl

theorem Same.call_changes (same : Same s t) (taken : t.call .direct this m = some t')
    (changed : t'.disk name ≠ t.disk name) : m.writes = true ∧ ∃ f, t.held this = some f ∧ f.name = name := by
  have stays : t.held = s.held := congrArg (holding fp) same.objects
  unfold Files.call at taken
  rw [same.answer] at taken
  rw [stays]
  cases answered : s.answer .buffered this m with
  | none => simp [answered] at taken
  | some r =>
    rw [answered] at taken
    cases r with
    | undefined => contradiction
    | ok _ b' | threw _ b' =>
      obtain ⟨b, f, -, held, f', rfl, named, bytes⟩ := answer_keeps answered nofun
      obtain rfl := Option.some.inj taken
      have there : f'.name = name := by
        by_contra apart
        exact changed (Function.update_of_ne (Ne.symm apart) _ _)
      refine ⟨?_, f, held, named.symm.trans there⟩
      rw [← Bool.not_eq_false]
      intro reads
      subst there
      apply changed
      have current : t.disk f.name = some f.bytes := same.level.current held
      rw [named, current, ← bytes reads, ← named]
      exact Function.update_self f'.name _ _

theorem Same.changes (same : Same s t) (taken : (lts .direct disk).step t a = some t')
    (changed : t'.disk name ≠ t.disk name) : a.Changes t name := by
  cases a with
  | construct this =>
    simp only [lts, Files.construct, Option.ite_none_right_eq_some, Option.some.injEq] at taken
    obtain ⟨-, rfl⟩ := taken
    exact absurd rfl changed
  | open_ this opened mode start => exact open_changes taken changed
  | close this => exact absurd (congrFun (close_disk taken) name) changed
  | moveConstruct this rhs =>
    simp only [lts, Files.moveConstruct, Option.ite_none_right_eq_some] at taken
    exact absurd (congrFun (take_disk taken.2) name) changed
  | moveAssign this rhs =>
    obtain ⟨mid, closed, taken⟩ := Option.bind_eq_some_iff.mp taken
    exact absurd (congrFun ((take_disk taken).trans (close_disk closed)) name) changed
  | destroy this =>
    obtain ⟨b, -, taken⟩ := Option.bind_eq_some_iff.mp taken
    obtain rfl := Option.some.inj taken
    exact absurd (congrFun (direct_closed _ _) name) changed
  | call this m => exact same.call_changes taken changed

theorem followed_direct (ran : (@lts O _ .buffered disk).Runs Allowed as s) :
    ∃ t, (lts .direct disk).Runs Allowed as t ∧ Same s t := by
  refine ran.followed (init_same disk) fun {s t a s'} same allowed taken => ⟨same.allowed_iff.mpr allowed, ?_⟩
  have both := @Same.step _ _ _ _ _ disk disk same allowed
  rw [taken] at both
  generalize after : (lts .direct disk).step t a = x at both ⊢
  cases both with
  | some same' => exact ⟨_, rfl, same'⟩

theorem followed_buffered (ran : (@lts O _ .direct disk).Runs Allowed as t) :
    ∃ s, (lts .buffered disk).Runs Allowed as s ∧ Same s t := by
  refine ran.followed (R := fun t s => Same s t) (init_same disk) fun {t s a t'} same allowed taken =>
    ⟨same.allowed_iff.mp allowed, ?_⟩
  have both := @Same.step _ _ _ _ _ disk disk same (same.allowed_iff.mp allowed)
  rw [taken] at both
  generalize after : (lts .buffered disk).step s a = x at both ⊢
  cases both with
  | some same' => exact ⟨_, rfl, same'⟩

/-- What a population of streams shows and leaves is what it would if each call worked on the file on the
disk, whatever the moves and the order of closes and destructions: in any run that opens no file twice. -/
theorem written_through (disk : Disk) :
    (∀ as s, (@lts O _ .buffered disk).Runs Allowed as s → ∃ t, (lts .direct disk).Runs Allowed as t ∧ Agree s t) ∧
    (∀ as t, (@lts O _ .direct disk).Runs Allowed as t → ∃ s, (lts .buffered disk).Runs Allowed as s ∧ Agree s t) ∧
    ∀ as t a t', (@lts O _ .direct disk).Runs Allowed as t → (lts .direct disk).step t a = some t' →
      ∀ name, t'.disk name ≠ t.disk name → a.Changes t name := by
  refine ⟨fun as s ran => ?_, fun as t ran => ?_, fun as t a t' ran taken name changed => ?_⟩
  · obtain ⟨t, ran', same⟩ := followed_direct ran
    exact ⟨t, ran', same.agree⟩
  · obtain ⟨s, ran', same⟩ := followed_buffered ran
    exact ⟨s, ran', same.agree⟩
  · obtain ⟨s, -, same⟩ := followed_buffered ran
    exact same.changes taken changed

end

/-- What is written is on the disk when the stream that it was moved to is gone. -/
theorem written_through_moved : ∃ as, ∃ s t : Files Bool, (lts .buffered fun _ => none).Runs Allowed as s ∧
    s.disk "a" = some [1, 2] ∧ (lts .direct fun _ => none).Runs Allowed as t ∧ t.disk "a" = some [1, 2] := by
  have constructed : (@lts Bool _ .buffered fun _ => none).Runs Allowed [.construct true] _ := .snoc .nil (by trivial) rfl
  have opened := constructed.snoc (a := .open_ true "a" .write 0) (by
    intro _ o
    cases o <;> nofun) rfl
  have wrote := opened.snoc (a := .call true (.write [1, 2])) (by trivial) rfl
  have moved := wrote.snoc (a := .moveConstruct false true) (by trivial) rfl
  have gone := moved.snoc (a := .destroy false) (by trivial) rfl
  obtain ⟨t, ran, agree⟩ := (written_through fun _ => none).1 _ _ gone
  refine ⟨_, _, t, gone, rfl, ran, agree.others "a" ?_⟩
  intro o
  cases o <;> nofun

end Files
end Celestite.BinaryFileStream
