import Celestite.ArcString.Runs

/-!
# Errors as values

One thread constructs, copies, assigns and destroys `clst::RuntimeError` objects, which cannot be
moved from. A copy carries the message of its source, unless an object is assigned to itself.
-/

namespace Celestite.ArcString
open Concurrency

def Point.rank : Point → ℕ
  | .lower => 5
  | .delete => 4
  | .clear => 3
  | .store => 2
  | .raise | .vacate => 1

section
variable {H : Type*} [DecidableEq H]

/-- Take steps until the call has returned; none where one would use a null pointer or a deleted
block. -/
def drive : ℕ → State H Unit → Option (State H Unit)
  | 0, _ => none
  | n + 1, s =>
    match s.running () with
    | none => some s
    | some (c, p) => (advance s () c p).bind (drive n)

/-- A whole call, which passes at most five points. -/
def perform (s : State H Unit) (c : Call H) : Option (State H Unit) := drive 6 (s.goto () c c.op.first)

def State.what (s : State H Unit) (h : H) : Option String :=
  (s.rep h).bind fun b => (s.storage b).map (·.str)

/-- The constructors, the copy assignment and the destructor; moves are deleted. -/
def Allowed (s : State H Unit) (c : Call H) : Prop :=
  c.op.moves = false ∧ s.alive c.this = !c.op.constructs ∧ ∀ h, c.op.rhs = some h → s.alive h = true

def Call.SelfAssigns (c : Call H) : Prop := c.op = .copyAssign c.this

def intended (v : H → Option String) (c : Call H) : H → Option String :=
  Function.update v c.this (match c.op with
    | .create str => some str
    | .copy rhs | .move rhs | .copyAssign rhs | .moveAssign rhs => v rhs
    | .destroy => none)

def errors (H : Type*) [DecidableEq H] : Lts (State H Unit × (H → Option String)) (Call H) where
  init := ({}, fun _ => none)
  step x c := (perform x.1 c).map fun s' => (s', intended x.2 c)

/-! ### One call -/

/-- What a call has done before it returns. -/
structure Ongoing (s₀ : State H Unit) (c : Call H) (p : Point) (s : State H Unit) : Prop where
  running : s.running () = some (c, p)
  released : p = .lower ∨ p = .delete ∨ p = .clear → c.op.constructs = false
  others : ∀ h, h ≠ c.this → s.rep h = s₀.rep h
  alive : s.alive = s₀.alive
  allocated : s.allocated = s₀.allocated
  strings : ∀ b r, s.storage b = some r → ∃ r₀, s₀.storage b = some r₀ ∧ r₀.str = r.str

/-- What it has done then. -/
structure Done (s₀ : State H Unit) (c : Call H) (s : State H Unit) : Prop where
  running : s.running () = none
  others : ∀ h, h ≠ c.this → s.rep h = s₀.rep h
  this : s.rep c.this = match c.op with
    | .create _ => some s₀.allocated
    | .copy rhs | .move rhs | .copyAssign rhs | .moveAssign rhs => s₀.rep rhs
    | .destroy => none
  alive : s.alive = Function.update s₀.alive c.this (decide (c.op ≠ .destroy))
  strings : ∀ b r, s.storage b = some r →
    (∃ r₀, s₀.storage b = some r₀ ∧ r₀.str = r.str) ∨ b = s₀.allocated ∧ c.op = .create r.str

variable {s₀ s s' : State H Unit} {c : Call H} {p q : Point} {h : H} {b : ℕ}

omit [DecidableEq H] in
theorem Ongoing.start : Ongoing s c c.op.first (s.goto () c c.op.first) where
  running := rfl
  released early := by
    unfold Op.first at early
    split at early
    · simp at early
    · simp_all
  others _ _ := rfl
  alive := rfl
  allocated := rfl
  strings _ r block := ⟨r, block, rfl⟩

omit [DecidableEq H] in
theorem Ongoing.goto (ongoing : Ongoing s₀ c p s) (released : q = .lower ∨ q = .delete ∨ q = .clear →
    c.op.constructs = false) : Ongoing s₀ c q (s.goto () c q) where
  running := rfl
  released := released
  others := ongoing.others
  alive := ongoing.alive
  allocated := ongoing.allocated
  strings := ongoing.strings

theorem Ongoing.setRep (ongoing : Ongoing s₀ c p s) (v : Option ℕ) : Ongoing s₀ c p (s.setRep c.this v) where
  running := ongoing.running
  released := ongoing.released
  others h other := (Function.update_of_ne other _ _).trans (ongoing.others h other)
  alive := ongoing.alive
  allocated := ongoing.allocated
  strings := ongoing.strings

omit [DecidableEq H] in
theorem Ongoing.setBlock (ongoing : Ongoing s₀ c p s) {r : Option ArcStringRep}
    (kept : ∀ r', r = some r' → ∃ r₀, s.storage b = some r₀ ∧ r₀.str = r'.str) :
    Ongoing s₀ c p (s.setBlock b r) where
  running := ongoing.running
  released := ongoing.released
  others := ongoing.others
  alive := ongoing.alive
  allocated := ongoing.allocated
  strings b' r' block := by
    rcases Sequential.update_cases block with ⟨rfl, new⟩ | ⟨-, block⟩
    · obtain ⟨r₁, block₁, str₁⟩ := kept r' new
      obtain ⟨r₀, block₀, str₀⟩ := ongoing.strings b' r₁ block₁
      exact ⟨r₀, block₀, str₀.trans str₁⟩
    · exact ongoing.strings b' r' block

omit [DecidableEq H] in
theorem Ongoing.note (ongoing : Ongoing s₀ c p s) (e : Event Unit) : Ongoing s₀ c p (s.note e) :=
  { ongoing with }

theorem Ongoing.finish (ongoing : Ongoing s₀ c p s) (this : s.rep c.this = match c.op with
    | .create _ => some s₀.allocated
    | .copy rhs | .move rhs | .copyAssign rhs | .moveAssign rhs => s₀.rep rhs
    | .destroy => none) : Done s₀ c (s.finish () c) where
  running := rfl
  others := ongoing.others
  this := this
  alive := congrArg (Function.update · c.this _) ongoing.alive
  strings b r block := .inl (ongoing.strings b r block)

theorem Ongoing.created (ongoing : Ongoing s₀ c p s) {str : String} (op : c.op = .create str) :
    Done s₀ c
      (((s.setBlock s.allocated (some { str })).setRep c.this (some s.allocated)).grow.finish () c) where
  running := rfl
  others h other := (Function.update_of_ne other _ _).trans (ongoing.others h other)
  this := by
    rw [op, ← ongoing.allocated]
    exact Function.update_self c.this _ _
  alive := congrArg (Function.update · c.this _) ongoing.alive
  strings b r block := by
    rcases Sequential.update_cases block with ⟨rfl, new⟩ | ⟨-, block⟩
    · obtain rfl := Option.some.inj new
      exact .inr ⟨ongoing.allocated, op⟩
    · exact .inl (ongoing.strings b r block)

/-- Each step goes to a later point or ends the call. -/
theorem Ongoing.step (ongoing : Ongoing s₀ c p s) (plain : c.op.moves = false) (expects : Expects s () c p)
    (apart : ∀ h, c.op.rhs = some h → h ≠ c.this) (stepped : advance s () c p = some s') :
    (∃ q, q.rank < p.rank ∧ Ongoing s₀ c q s') ∨ Done s₀ c s' := by
  unfold advance at stepped
  cases p with
  | lower =>
    have releases := ongoing.released (.inl rfl)
    cases points : s.rep c.this with
    | none =>
      simp only [points, Option.some.injEq] at stepped
      obtain rfl := stepped
      exact .inl ⟨.clear, by decide, ongoing.goto fun _ => releases⟩
    | some b =>
      simp only [points, Option.map_eq_some_iff] at stepped
      obtain ⟨r, block, rfl⟩ := stepped
      have lowered := (ongoing.setBlock (b := b) (r := some { r with refCnt := r.refCnt - 1 })
        (by rintro _ ⟨⟩; exact ⟨r, block, rfl⟩)).note (.lowered () b r.refCnt)
      refine .inl ⟨if r.refCnt = 1 then .delete else .clear, ?_, lowered.goto fun _ => releases⟩
      split <;> decide
  | delete =>
    have releases := ongoing.released (.inr (.inl rfl))
    cases points : s.rep c.this with
    | none =>
      simp only [points, Option.some.injEq] at stepped
      obtain rfl := stepped
      exact .inl ⟨.clear, by decide, ongoing.goto fun _ => releases⟩
    | some b =>
      simp only [points, Option.map_eq_some_iff] at stepped
      obtain ⟨r, block, rfl⟩ := stepped
      have deleted := (ongoing.setBlock (b := b) (r := none) nofun).note (.deleted () b)
      exact .inl ⟨.clear, by decide, deleted.goto fun _ => releases⟩
  | clear =>
    have releases := ongoing.released (.inr (.inr rfl))
    cases op : c.op with
    | copyAssign rhs | moveAssign rhs =>
      simp only [op, Option.some.injEq] at stepped
      obtain rfl := stepped
      exact .inl ⟨.store, by decide, (ongoing.setRep none).goto (by simp)⟩
    | destroy =>
      simp only [op, Option.some.injEq] at stepped
      obtain rfl := stepped
      refine .inr ((ongoing.setRep none).finish ?_)
      rw [op]
      exact Function.update_self c.this _ _
    | create str | copy rhs | move rhs => simp [op, Op.constructs] at releases
  | store =>
    cases op : c.op with
    | create str =>
      simp only [op, Option.some.injEq] at stepped
      obtain rfl := stepped
      exact .inr (ongoing.created op)
    | copy rhs | copyAssign rhs =>
      simp only [op, Option.some.injEq] at stepped
      obtain rfl := stepped
      exact .inl ⟨.raise, by decide, (ongoing.setRep _).goto (by simp)⟩
    | move rhs | moveAssign rhs => simp [op, Op.moves] at plain
    | destroy => exact absurd op expects.1
  | raise =>
    obtain ⟨copies, rhs, source, same⟩ := expects
    simp only [Option.bind_eq_some_iff, Option.map_eq_some_iff] at stepped
    obtain ⟨b, points, r, block, rfl⟩ := stepped
    have raised := ongoing.setBlock (b := b) (r := some { r with refCnt := r.refCnt + 1 })
      (by rintro _ ⟨⟩; exact ⟨r, block, rfl⟩)
    refine .inr (raised.finish ?_)
    have this : s.rep c.this = s₀.rep rhs := same.symm.trans (ongoing.others rhs (apart rhs source))
    cases op : c.op <;> simp_all [Op.rhs, Op.copies, Op.moves, State.setBlock]
  | vacate =>
    rw [expects.1] at plain
    contradiction

/-! ### Runs of calls -/

/-- Between calls every object has a string, and that is its message. -/
structure Kept [Fintype H] (s : State H Unit) (v : H → Option String) : Prop where
  sound : Sound s
  quiet : s.running () = none
  full : ∀ h, s.alive h = true → s.rep h ≠ none
  what : ∀ h, s.what h = v h

variable [Fintype H] {v : H → Option String} {g : H}

theorem rank_pos : 0 < p.rank := by cases p <;> decide

omit [Fintype H] in
theorem drive_next (running : s.running () = some (c, p)) (stepped : advance s () c p = some s') (n : ℕ) :
    drive (n + 1) s = drive n s' := by
  rw [drive, running]
  simp only [stepped, Option.bind_some]

theorem drive_done {n : ℕ} (plain : c.op.moves = false) (sound : Sound s) (ongoing : Ongoing s₀ c p s)
    (enough : p.rank < n) : ∃ s', drive n s = some s' ∧ Sound s' ∧ Done s₀ c s' := by
  induction n generalizing p s with
  | zero => omega
  | succ n ih =>
    have here := ongoing.running
    obtain ⟨next, stepped⟩ := Option.isSome_iff_exists.mp (sound.advances here)
    have sound' : Sound next := (advance_taken stepped).keeps sound here
    rw [drive_next here stepped]
    rcases ongoing.step plain (sound.expects here) (fun h => sound.distinct here) stepped with
      ⟨q, later, ongoing'⟩ | done
    · exact ih sound' ongoing' (by omega)
    · have pos := @rank_pos p
      obtain ⟨m, rfl⟩ := Nat.exists_eq_add_one.mpr (by omega : 0 < n)
      exact ⟨next, by rw [drive, done.running], sound', done⟩

theorem perform_done (sound : Sound s) (quiet : s.running () = none) (plain : c.op.moves = false)
    (lawful : Lawful s (.start () c)) : ∃ s', perform s c = some s' ∧ Sound s' ∧ Done s c s' := by
  apply drive_done plain (sound.start quiet lawful) .start
  unfold Op.first
  split <;> decide

omit [Fintype H] in
theorem shown_of_quiet (quiet : s.running () = none) : ¬s.Hidden h := by
  rintro ⟨t, hidden⟩
  rw [quiet] at hidden
  contradiction

/-- A pointer that was there before the call is to the string it was to. -/
theorem Done.what_eq (done : Done s c s') (sound : Sound s) (sound' : Sound s')
    (points : s'.rep h = s.rep g) : s'.what h = s.what g := by
  unfold State.what
  rw [points]
  cases old : s.rep g with
  | none => rfl
  | some b =>
    obtain ⟨r, block⟩ := sound'.live (points.trans old) (shown_of_quiet done.running)
    rcases done.strings b r block with ⟨r₀, block₀, str⟩ | ⟨new, -⟩
    · simp only [Option.bind_some, block, block₀, Option.map_some, str]
    · exact absurd new (sound.numbered old).ne

theorem Done.what_created (done : Done s c s') (sound : Sound s) (sound' : Sound s') {str : String}
    (op : c.op = .create str) : s'.what c.this = some str := by
  have points := done.this
  rw [op] at points
  obtain ⟨r, block⟩ := sound'.live points (shown_of_quiet done.running)
  unfold State.what
  rw [points, Option.bind_some, block, Option.map_some]
  rcases done.strings _ r block with ⟨r₀, block₀, -⟩ | ⟨-, op'⟩
  · exact absurd (sound.born block₀) (lt_irrefl _)
  · rw [op] at op'
    injection op' with same
    rw [same]

theorem Kept.lawful (kept : Kept s v) (allowed : Allowed s c) (apart : ¬c.SelfAssigns) :
    Lawful s (.start () c) := by
  obtain ⟨plain, alive, source⟩ := allowed
  refine ⟨alive, fun h rhs => ⟨?_, source h rhs, fun _ => kept.full h (source h rhs)⟩, ?_⟩
  · rintro rfl
    have living := source c.this rhs
    rw [alive] at living
    cases op : c.op with
    | create | destroy => simp [op, Op.rhs] at rhs
    | copy => simp [op, Op.constructs] at living
    | move | moveAssign => simp [op, Op.moves] at plain
    | copyAssign =>
      rw [op] at rhs
      obtain rfl := Option.some.inj rhs
      exact apart op
  · intro u d p other
    rw [kept.quiet] at other
    contradiction

theorem Kept.step (kept : Kept s v) (allowed : Allowed s c) (apart : ¬c.SelfAssigns) :
    ∃ s', perform s c = some s' ∧ Done s c s' ∧ Kept s' (intended v c) := by
  obtain ⟨s', performed, sound', done⟩ :=
    perform_done kept.sound kept.quiet allowed.1 (kept.lawful allowed apart)
  refine ⟨s', performed, done, sound', done.running, ?_, ?_⟩
  · intro h living
    rw [done.alive] at living
    by_cases this : h = c.this
    · subst this
      rw [Function.update_self] at living
      rw [done.this]
      cases op : c.op with
      | create => simp
      | copy rhs | move rhs | copyAssign rhs | moveAssign rhs =>
        exact kept.full rhs (allowed.2.2 rhs (by rw [op]; rfl))
      | destroy => simp [op] at living
    · rw [Function.update_of_ne this] at living
      rw [done.others h this]
      exact kept.full h living
  · intro h
    unfold intended
    by_cases this : h = c.this
    · subst this
      rw [Function.update_self]
      have points := done.this
      cases op : c.op with
      | create str => exact done.what_created kept.sound sound' op
      | copy rhs | move rhs | copyAssign rhs | moveAssign rhs =>
        rw [op] at points
        exact (done.what_eq kept.sound sound' points).trans (kept.what rhs)
      | destroy =>
        rw [op] at points
        unfold State.what
        rw [points, Option.bind_none]
    · rw [Function.update_of_ne this, done.what_eq kept.sound sound' (done.others h this), kept.what]

omit [Fintype H] in
theorem advance_lower {r : ArcStringRep} (points : s.rep c.this = some b) (block : s.storage b = some r) :
    advance s () c .lower =
      some (((s.setBlock b (some { r with refCnt := r.refCnt - 1 })).note (.lowered () b r.refCnt)).goto () c
        (if r.refCnt = 1 then .delete else .clear)) := by
  unfold advance
  simp only [points, block, Option.map_some]

omit [Fintype H] in
theorem advance_delete {r : ArcStringRep} (points : s.rep c.this = some b) (block : s.storage b = some r) :
    advance s () c .delete = some (((s.setBlock b none).note (.deleted () b)).goto () c .clear) := by
  unfold advance
  simp only [points, block, Option.map_some]

omit [Fintype H] in
/-- The pointer that `release` has cleared is read and used. -/
theorem drive_cleared {this : H} (running : s.running () = some (⟨.copyAssign this, this⟩, .clear)) (n : ℕ) :
    drive (n + 3) s = none := by
  rw [drive_next running rfl, drive_next rfl rfl]
  simp [drive, advance, State.goto, State.setRep]

omit [Fintype H] in
theorem drive_deleted {this : H} {r : ArcStringRep} (points : s.rep this = some b) (block : s.storage b = some r)
    (running : s.running () = some (⟨.copyAssign this, this⟩, .delete)) (n : ℕ) : drive (n + 4) s = none := by
  rw [drive_next running (advance_delete points block)]
  exact drive_cleared rfl n

theorem Kept.self_assign (kept : Kept s v) (allowed : Allowed s c) (self : c.SelfAssigns) :
    perform s c = none := by
  obtain ⟨op, this⟩ := c
  obtain rfl : op = .copyAssign this := self
  obtain ⟨b, points⟩ := Option.ne_none_iff_exists'.mp (kept.full this allowed.2.1)
  obtain ⟨r, block⟩ := kept.sound.live points (shown_of_quiet kept.quiet)
  show drive 6 (s.goto () ⟨.copyAssign this, this⟩ .lower) = none
  have lowered := @advance_lower _ _ (s.goto () ⟨.copyAssign this, this⟩ .lower)
    ⟨.copyAssign this, this⟩ _ _ points block
  rw [drive_next rfl lowered]
  by_cases last : r.refCnt = 1
  · rw [if_pos last]
    refine drive_deleted ?_ (Function.update_self b _ _) rfl 1
    exact points
  · rw [if_neg last]
    exact drive_cleared rfl 2

variable {x : State H Unit × (H → Option String)}

theorem kept_of_reaches (reached : (errors H).Reaches (fun x c => Allowed x.1 c ∧ ¬c.SelfAssigns) x) :
    Kept x.1 x.2 := by
  apply reached.invariant
  · exact ⟨init_sound, rfl, fun h living => by simp [errors] at living, fun h => rfl⟩
  · intro x c x' _ kept ⟨allowed, apart⟩ taken
    obtain ⟨s', performed, -, kept'⟩ := kept.step allowed apart
    obtain ⟨s'', performed', rfl⟩ := Option.map_eq_some_iff.mp taken
    obtain rfl := Option.some.inj (performed.symm.trans performed')
    exact kept'

theorem Kept.alive_iff (kept : Kept s v) : s.alive h = true ↔ v h ≠ none := by
  rw [← kept.what]
  unfold State.what
  constructor
  · intro living
    obtain ⟨b, points⟩ := Option.ne_none_iff_exists'.mp (kept.full h living)
    obtain ⟨r, block⟩ := kept.sound.live points (shown_of_quiet kept.quiet)
    rw [points, Option.bind_some, block]
    simp
  · intro there
    by_contra dead
    have empty := kept.sound.dead (Bool.eq_false_iff.mpr dead) fun {t c p} call => by
      rw [kept.quiet] at call
      contradiction
    simp [empty] at there

theorem Kept.assign (kept : Kept s v) {a b : H} (allowed : Allowed s ⟨.copyAssign b, a⟩)
    (performed : perform s ⟨.copyAssign b, a⟩ = some s') :
    s'.what a = s.what b ∧ ∀ h, h ≠ a → s'.what h = s.what h := by
  by_cases self : Call.SelfAssigns (⟨.copyAssign b, a⟩ : Call H)
  · rw [kept.self_assign allowed self] at performed
    contradiction
  · obtain ⟨s'', performed', done, kept'⟩ := kept.step allowed self
    obtain rfl := Option.some.inj (performed.symm.trans performed')
    exact ⟨done.what_eq kept.sound kept'.sound done.this,
      fun h other => done.what_eq kept.sound kept'.sound (done.others h other)⟩

/-- In the runs that assign no object to itself every message is that of the construction it comes
from and every string is deleted with its last holder; and any call that assigns an object to itself,
and no other one, uses a null pointer. -/
theorem messages_kept (reached : (errors H).Reaches (fun x c => Allowed x.1 c ∧ ¬c.SelfAssigns) x) :
    (∀ c, Allowed x.1 c → ((∃ s', perform x.1 c = some s') ↔ ¬c.SelfAssigns)) ∧
    (∀ a b s', Allowed x.1 ⟨.copyAssign b, a⟩ → perform x.1 ⟨.copyAssign b, a⟩ = some s' →
      s'.what a = x.1.what b ∧ ∀ h, h ≠ a → s'.what h = x.1.what h) ∧
    (∀ h, x.1.what h = x.2 h ∧ (x.1.alive h = true ↔ x.2 h ≠ none)) ∧
    (∀ b, x.1.storage b ≠ none ↔ ∃ h, x.1.rep h = some b) ∧
    ∀ b, x.1.deletions b = [] ∧ (b < x.1.allocated → x.1.storage b ≠ none) ∨
      x.1.deletions b = [()] ∧ x.1.storage b = none := by
  have kept := kept_of_reaches reached
  refine ⟨?_, fun a b s' => kept.assign, fun h => ⟨kept.what h, kept.alive_iff⟩, ?_, ?_⟩
  · intro c allowed
    constructor
    · rintro ⟨s', performed⟩ self
      rw [kept.self_assign allowed self] at performed
      contradiction
    · intro apart
      obtain ⟨s', performed, -⟩ := kept.step allowed apart
      exact ⟨s', performed⟩
  · intro b
    exact stored_iff_of_quiet kept.sound fun _ => kept.quiet
  · intro b
    rcases deleted_once kept.sound b with there | ⟨⟨⟩, -, once, gone⟩
    · exact .inl there
    · exact .inr ⟨once, gone⟩

instance (s : State H Unit) (c : Call H) : Decidable (Allowed s c) :=
  inferInstanceAs (Decidable (_ ∧ _ ∧ ∀ h, c.op.rhs = some h → s.alive h = true))

instance (c : Call H) : Decidable c.SelfAssigns := inferInstanceAs (Decidable (_ = _))

end

/-- Two errors that share a string are assigned to each other, and the first one is destroyed. -/
theorem messages_kept_two : ∃ s v, (errors (Fin 2)).Reaches (fun x c => Allowed x.1 c ∧ ¬c.SelfAssigns) (s, v) ∧
    s.what 1 = some "e" ∧ s.storage 0 ≠ none := by
  obtain ⟨x, ran, message, points⟩ : ∃ x, (errors (Fin 2)).run (fun x c => Allowed x.1 c ∧ ¬c.SelfAssigns)
      (errors (Fin 2)).init [⟨.create "e", 0⟩, ⟨.copy 0, 1⟩, ⟨.copyAssign 0, 1⟩, ⟨.destroy, 0⟩] = some x ∧
      x.2 1 = some "e" ∧ x.1.rep 1 = some 0 := ⟨_, rfl, rfl, rfl⟩
  have reached := Lts.run_reaches _ .init ran
  obtain ⟨-, -, messages, stored, -⟩ := messages_kept reached
  exact ⟨x.1, x.2, reached, (messages 1).1.trans message, (stored 0).mpr ⟨1, points⟩⟩

/-- An error is assigned to itself. -/
theorem self_assignment_faults : ¬∀ x, (errors (Fin 1)).Reaches (fun x c => Allowed x.1 c) x →
    ∀ c, Allowed x.1 c → ∃ s', perform x.1 c = some s' := by
  intro claimed
  obtain ⟨x, ran, allowed, faults⟩ : ∃ x, (errors (Fin 1)).run (fun x c => Allowed x.1 c)
      (errors (Fin 1)).init [⟨.create "e", 0⟩] = some x ∧ Allowed x.1 ⟨.copyAssign 0, 0⟩ ∧
      perform x.1 ⟨.copyAssign 0, 0⟩ = none := ⟨_, rfl, by decide, rfl⟩
  obtain ⟨s', performed⟩ := claimed x (Lts.run_reaches _ .init ran) _ allowed
  rw [faults] at performed
  contradiction

end Celestite.ArcString
