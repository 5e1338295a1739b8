import Mathlib.Algebra.Order.BigOperators.Group.Finset
import Celestite.ArcString.Model
import Celestite.Sequential.Ownership

/-!
# What the counts of live blocks are

Between two steps of a call the count of a block can be one less than the handles that point to
it. Such a handle is hidden; a block counts the others.
-/

namespace Celestite.ArcString
open Concurrency Celestite.Sequential

variable {H I : Type*} {s s' : State H I} {t u : I} {c d : Call H} {p q : Point} {h : H} {b : ℕ}

theorem Call.modifies_this : c.Modifies c.this := .inl rfl

theorem Call.Apart.symm (apart : c.Apart d) : d.Apart c := fun h => ⟨(apart h).2, (apart h).1⟩

theorem Call.Apart.this_ne (apart : c.Apart d) : d.this ≠ c.this := fun same =>
  (apart c.this).1 c.modifies_this (.inl same)

/-! ### What is known -/

/-- The threads whose `fetch_sub` on a block returned 1. -/
def State.zeroings (s : State H I) (b : ℕ) : List I :=
  s.log.filterMap fun
    | .lowered t b' old => if b' = b ∧ old = 1 then some t else none
    | .deleted _ _ => none

def State.deletions (s : State H I) (b : ℕ) : List I :=
  s.log.filterMap fun
    | .deleted t b' => if b' = b then some t else none
    | .lowered _ _ _ => none

theorem zeroings_lowered {u : I} {b' : ℕ} {old : ℤ} :
    (s.note (.lowered u b' old)).zeroings b = s.zeroings b ++ if b' = b ∧ old = 1 then [u] else [] := by
  simp only [State.zeroings, State.note, List.filterMap_append]
  split_ifs with one <;> simp [one]

theorem deletions_deleted {u : I} {b' : ℕ} :
    (s.note (.deleted u b')).deletions b = s.deletions b ++ if b' = b then [u] else [] := by
  simp only [State.deletions, State.note, List.filterMap_append]
  split_ifs with same <;> simp [same]

theorem deletions_lowered {u : I} {b' : ℕ} {old : ℤ} :
    (s.note (.lowered u b' old)).deletions b = s.deletions b := by
  simp [State.deletions, State.note]

theorem zeroings_deleted {u : I} {b' : ℕ} : (s.note (.deleted u b')).zeroings b = s.zeroings b := by
  simp [State.zeroings, State.note]

def Expects (s : State H I) (t : I) (c : Call H) : Point → Prop
  | .lower | .clear => True
  | .store => c.op ≠ .destroy ∧ s.rep c.this = none
  | .raise => c.op.copies = true ∧ ∃ rhs, c.op.rhs = some rhs ∧ s.rep rhs = s.rep c.this
  | .vacate => c.op.moves = true ∧ ∃ rhs, c.op.rhs = some rhs ∧ s.rep rhs = s.rep c.this
  | .delete => ∃ b r, s.rep c.this = some b ∧ s.storage b = some r ∧ r.refCnt = 0 ∧ s.zeroings b = [t]

/-- No two threads run calls that touch the handle one of them writes. -/
structure Exclusive (s : State H I) : Prop where
  apart : ∀ {t u c d p q}, s.running t = some (c, p) → s.running u = some (d, q) → t ≠ u → c.Apart d
  distinct : ∀ {t c p h}, s.running t = some (c, p) → c.op.rhs = some h → h ≠ c.this

theorem expects_congr (rep : s'.rep = s.rep) (storage : s'.storage = s.storage) (log : s'.log = s.log)
    (expects : Expects s t c p) : Expects s' t c p := by
  have zeroings : s'.zeroings = s.zeroings := by
    unfold State.zeroings
    rw [log]
  cases p with
  | lower | clear => trivial
  | store | raise | vacate | delete => simpa only [Expects, rep, storage, zeroings] using expects

/-- What became of a block: nothing yet, counted, left by its last handle or deleted. -/
inductive Past (s : State H I) (b : ℕ) : Prop where
  | unborn (none_ : s.storage b = none) (later : s.allocated ≤ b) (zeroings : s.zeroings b = [])
      (deletions : s.deletions b = [])
  | live {r : ArcStringRep} (block : s.storage b = some r) (nonzero : r.refCnt ≠ 0)
      (zeroings : s.zeroings b = []) (deletions : s.deletions b = [])
  | dying {r : ArcStringRep} {t : I} {c : Call H} (block : s.storage b = some r) (zero : r.refCnt = 0)
      (last : s.running t = some (c, .delete)) (here : s.rep c.this = some b)
      (zeroings : s.zeroings b = [t]) (deletions : s.deletions b = [])
  | deleted {t : I} (none_ : s.storage b = none) (earlier : b < s.allocated)
      (zeroings : s.zeroings b = [t]) (deletions : s.deletions b = [t])

/-! ### Steps -/

variable [DecidableEq H] [DecidableEq I]

/-- What one step of a call does. -/
inductive Taken (s : State H I) (t : I) (c : Call H) : Point → State H I → Prop where
  | skip {p : Point} (first : p = .lower ∨ p = .delete) (null : s.rep c.this = none) :
      Taken s t c p (s.goto t c .clear)
  | lower {b : ℕ} {r : ArcStringRep} (here : s.rep c.this = some b) (block : s.storage b = some r) :
      Taken s t c .lower (((s.setBlock b (some { r with refCnt := r.refCnt - 1 })).note
        (.lowered t b r.refCnt)).goto t c (if r.refCnt = 1 then .delete else .clear))
  | delete {b : ℕ} {r : ArcStringRep} (here : s.rep c.this = some b) (block : s.storage b = some r) :
      Taken s t c .delete (((s.setBlock b none).note (.deleted t b)).goto t c .clear)
  | clear (stays : c.op ≠ .destroy) : Taken s t c .clear ((s.setRep c.this none).goto t c .store)
  | release : Taken s t c .clear ((s.setRep c.this none).finish t c)
  | create {str : String} (op : c.op = .create str) : Taken s t c .store
      (((s.setBlock s.allocated (some { str })).setRep c.this (some s.allocated)).grow.finish t c)
  | copy {rhs : H} (copies : c.op.copies = true) (from_ : c.op.rhs = some rhs) :
      Taken s t c .store ((s.setRep c.this (s.rep rhs)).goto t c .raise)
  | move {rhs : H} (moves : c.op.moves = true) (from_ : c.op.rhs = some rhs) :
      Taken s t c .store ((s.setRep c.this (s.rep rhs)).goto t c .vacate)
  | raise {b : ℕ} {r : ArcStringRep} (here : s.rep c.this = some b) (block : s.storage b = some r) :
      Taken s t c .raise ((s.setBlock b (some { r with refCnt := r.refCnt + 1 })).finish t c)
  | vacate {rhs : H} (from_ : c.op.rhs = some rhs) :
      Taken s t c .vacate ((s.setRep rhs none).finish t c)

theorem advance_taken (step : advance s t c p = some s') : Taken s t c p s' := by
  unfold advance at step
  cases p with
  | lower =>
    cases here : s.rep c.this with
    | none =>
      simp only [here, Option.some.injEq] at step
      exact step ▸ .skip (.inl rfl) here
    | some b =>
      simp only [here, Option.map_eq_some_iff] at step
      obtain ⟨r, block, rfl⟩ := step
      exact .lower here block
  | delete =>
    cases here : s.rep c.this with
    | none =>
      simp only [here, Option.some.injEq] at step
      exact step ▸ .skip (.inr rfl) here
    | some b =>
      simp only [here, Option.map_eq_some_iff] at step
      obtain ⟨r, block, rfl⟩ := step
      exact .delete here block
  | clear =>
    cases op : c.op with
    | copyAssign rhs | moveAssign rhs =>
      simp only [op, Option.some.injEq] at step
      exact step ▸ .clear (by rw [op]; nofun)
    | create str | copy rhs | move rhs | destroy =>
      simp only [op, Option.some.injEq] at step
      exact step ▸ .release
  | store =>
    simp only at step
    cases op : c.op with
    | create str =>
      simp only [op, Option.some.injEq] at step
      exact step ▸ .create op
    | copy rhs | copyAssign rhs =>
      simp only [op, Option.some.injEq] at step
      exact step ▸ .copy (by rw [op]; rfl) (by rw [op]; rfl)
    | move rhs | moveAssign rhs =>
      simp only [op, Option.some.injEq] at step
      exact step ▸ .move (by rw [op]; rfl) (by rw [op]; rfl)
    | destroy => simp [op] at step
  | raise =>
    simp only [Option.bind_eq_some_iff, Option.map_eq_some_iff] at step
    obtain ⟨b, here, r, block, rfl⟩ := step
    exact .raise here block
  | vacate =>
    simp only [Option.map_eq_some_iff] at step
    obtain ⟨rhs, found, rfl⟩ := step
    exact .vacate found

/-- What one step of a call does to a block. -/
inductive OnBlock (s : State H I) (t : I) (c : Call H) (s' : State H I) (b : ℕ) : Point → Prop where
  | untouched {p : Point} (storage : s'.storage b = s.storage b) (zeroings : s'.zeroings b = s.zeroings b)
      (deletions : s'.deletions b = s.deletions b) (unborn : s.allocated ≤ b → s'.allocated ≤ b)
      (other : p = .delete → s.rep c.this ≠ some b) :
      OnBlock s t c s' b p
  | lowered {r : ArcStringRep} (here : s.rep c.this = some b) (block : s.storage b = some r)
      (storage : s'.storage b = some { r with refCnt := r.refCnt - 1 })
      (zeroings : s'.zeroings b = s.zeroings b ++ if r.refCnt = 1 then [t] else [])
      (deletions : s'.deletions b = s.deletions b) (same : s'.allocated = s.allocated)
      (rep : s'.rep = s.rep) (next : r.refCnt = 1 → s'.running t = some (c, .delete)) :
      OnBlock s t c s' b .lower
  | deleted {r : ArcStringRep} (here : s.rep c.this = some b) (block : s.storage b = some r)
      (storage : s'.storage b = none) (zeroings : s'.zeroings b = s.zeroings b)
      (deletions : s'.deletions b = s.deletions b ++ [t]) (same : s'.allocated = s.allocated) :
      OnBlock s t c s' b .delete
  | raised {r : ArcStringRep} (here : s.rep c.this = some b) (block : s.storage b = some r)
      (storage : s'.storage b = some { r with refCnt := r.refCnt + 1 })
      (zeroings : s'.zeroings b = s.zeroings b) (deletions : s'.deletions b = s.deletions b)
      (same : s'.allocated = s.allocated) : OnBlock s t c s' b .raise
  | created {str : String} (number : b = s.allocated) (storage : s'.storage b = some { str })
      (zeroings : s'.zeroings b = s.zeroings b) (deletions : s'.deletions b = s.deletions b)
      (grown : s'.allocated = s.allocated + 1) : OnBlock s t c s' b .store

theorem Taken.onBlock (taken : Taken s t c p s') (b : ℕ) : OnBlock s t c s' b p := by
  cases taken with
  | skip first null => exact .untouched rfl rfl rfl id fun _ => by simp [null]
  | clear | release | copy | move | vacate => exact .untouched rfl rfl rfl id nofun
  | @lower b' r here block =>
    by_cases same : b = b'
    · subst same
      refine .lowered here block (Function.update_self b _ _) ?_ deletions_lowered rfl rfl fun last => ?_
      · exact zeroings_lowered.trans (by simp only [true_and]; rfl)
      · simp only [last, if_true]
        exact Function.update_self t _ _
    · refine .untouched (Function.update_of_ne same _ _) ?_ deletions_lowered id nofun
      exact zeroings_lowered.trans (by simp [Ne.symm same]; rfl)
  | @delete b' r here block =>
    by_cases same : b = b'
    · subst same
      refine .deleted here block (Function.update_self b _ _) zeroings_deleted ?_ rfl
      exact deletions_deleted.trans (by simp only [if_true]; rfl)
    · refine .untouched (Function.update_of_ne same _ _) zeroings_deleted ?_ id fun _ => ?_
      · exact deletions_deleted.trans (by simp [Ne.symm same]; rfl)
      · simp [here, Ne.symm same]
  | @raise b' r here block =>
    by_cases same : b = b'
    · subst same
      exact .raised here block (Function.update_self b _ _) rfl rfl rfl
    · exact .untouched (Function.update_of_ne same _ _) rfl rfl id nofun
  | create op =>
    by_cases same : b = s.allocated
    · subst same
      exact .created rfl (Function.update_self s.allocated _ _) rfl rfl rfl
    · refine .untouched (Function.update_of_ne same _ _) rfl rfl (fun le => ?_) nofun
      exact Nat.lt_of_le_of_ne le (Ne.symm same)

/-! ### Running calls -/

/-- The points at which the handle of the call points to a block that does not count it. -/
def Point.hides : Point → Bool
  | .delete | .clear | .raise | .vacate => true
  | .lower | .store => false

def hides (h : H) : Option (Call H × Point) → Bool
  | some (c, p) => p.hides && decide (c.this = h)
  | none => false

namespace State

def Hidden (s : State H I) (h : H) : Prop := ∃ t, hides h (s.running t) = true

instance [Fintype I] (s : State H I) (h : H) : Decidable (s.Hidden h) :=
  inferInstanceAs (Decidable (∃ t, hides h (s.running t) = true))

/-- The handles a block counts. -/
def counted [Fintype H] [Fintype I] (s : State H I) (b : ℕ) : Finset H :=
  Finset.univ.filter fun h => s.rep h = some b ∧ ¬s.Hidden h

end State

theorem Taken.running (taken : Taken s t c p s') :
    ∃ next, s'.running = Function.update s.running t next ∧ ∀ d q, next = some (d, q) → d = c := by
  cases taken <;> refine ⟨_, rfl, ?_⟩ <;> simp +contextual

theorem Taken.rep_eq (taken : Taken s t c p s') (other : h ≠ c.this)
    (kept : p = .vacate → c.op.rhs ≠ some h) : s'.rep h = s.rep h := by
  cases taken with
  | vacate rhs =>
    have apart : h ≠ _ := fun same => kept rfl (same ▸ rhs)
    exact Function.update_of_ne apart _ _
  | skip | lower | delete | raise => rfl
  | clear | release | create | copy | move => exact Function.update_of_ne other _ _

theorem Taken.alive_eq (taken : Taken s t c p s') (other : h ≠ c.this) : s'.alive h = s.alive h := by
  cases taken with
  | release | create | raise | vacate => exact Function.update_of_ne other _ _
  | skip | lower | delete | clear | copy | move => rfl

theorem Taken.vacated (taken : Taken s t c .vacate s') (rhs : c.op.rhs = some h) : s'.rep h = none := by
  cases taken with
  | skip first => rcases first with first | first <;> contradiction
  | vacate rhs' =>
    obtain rfl := Option.some.inj (rhs'.symm.trans rhs)
    exact Function.update_self _ _ _

theorem Taken.grown (taken : Taken s t c p s') : s.allocated ≤ s'.allocated := by
  cases taken with
  | create => exact Nat.le_succ _
  | skip | lower | delete | clear | release | copy | move | raise | vacate => exact le_rfl

theorem hidden_after {next : Option (Call H × Point)} (exclusive : Exclusive s)
    (here : s.running t = some (c, p)) (running : s'.running = Function.update s.running t next) :
    s'.Hidden c.this ↔ hides c.this next = true := by
  constructor
  · rintro ⟨u, hidden⟩
    rw [running] at hidden
    by_cases same : u = t
    · rwa [same, Function.update_self] at hidden
    · rw [Function.update_of_ne same] at hidden
      cases other : s.running u with
      | none => simp [other, hides] at hidden
      | some call =>
        obtain ⟨d, q⟩ := call
        simp only [other, hides, Bool.and_eq_true, decide_eq_true_eq] at hidden
        exact absurd hidden.2 (exclusive.apart here other (Ne.symm same)).this_ne
  · intro hidden
    exact ⟨t, by rwa [running, Function.update_self]⟩

theorem hidden_this (exclusive : Exclusive s) (here : s.running t = some (c, p)) :
    s.Hidden c.this ↔ p.hides = true := by
  have same : s.running = Function.update s.running t (some (c, p)) := by
    rw [← here, Function.update_eq_self]
  rw [hidden_after exclusive here same]
  simp [hides]

theorem hidden_other {next : Option (Call H × Point)} (here : s.running t = some (c, p))
    (running : s'.running = Function.update s.running t next) (own : ∀ d q, next = some (d, q) → d = c)
    (other : h ≠ c.this) : s'.Hidden h ↔ s.Hidden h := by
  have quiet : hides h (s.running t) = false := by simp [here, hides, Ne.symm other]
  have quiet' : hides h next = false := by
    cases next with
    | none => rfl
    | some call =>
      obtain rfl := own call.1 call.2 rfl
      simp [hides, Ne.symm other]
  constructor
  · rintro ⟨u, hidden⟩
    rw [running] at hidden
    by_cases same : u = t
    · rw [same, Function.update_self, quiet'] at hidden
      contradiction
    · exact ⟨u, by rwa [Function.update_of_ne same] at hidden⟩
  · rintro ⟨u, hidden⟩
    by_cases same : u = t
    · rw [same, quiet] at hidden
      contradiction
    · exact ⟨u, by rwa [running, Function.update_of_ne same]⟩

theorem Exclusive.taken (exclusive : Exclusive s) (here : s.running t = some (c, p))
    (taken : Taken s t c p s') : Exclusive s' := by
  obtain ⟨next, running, own⟩ := taken.running
  have before : ∀ {u d q}, s'.running u = some (d, q) → ∃ q', s.running u = some (d, q') := by
    intro u d q call
    rw [running] at call
    by_cases same : u = t
    · subst same
      rw [Function.update_self] at call
      exact ⟨p, by rw [here, own d q call]⟩
    · rw [Function.update_of_ne same] at call
      exact ⟨q, call⟩
  constructor
  · intro u v d e q r first second differ
    obtain ⟨q', first⟩ := before first
    obtain ⟨r', second⟩ := before second
    exact exclusive.apart first second differ
  · intro u d q h call rhs
    obtain ⟨q', call⟩ := before call
    exact exclusive.distinct call rhs

omit [DecidableEq H] in
theorem Exclusive.start {c : Call H} (exclusive : Exclusive s) (lawful : Lawful s (.start t c)) (p : Point) :
    Exclusive (s.goto t c p) := by
  obtain ⟨-, source, apart⟩ := lawful
  have before : ∀ {u d q}, (s.goto t c p).running u = some (d, q) →
      u = t ∧ d = c ∨ u ≠ t ∧ s.running u = some (d, q) := by
    intro u d q call
    by_cases same : u = t
    · subst same
      simp only [State.goto, Function.update_self, Option.some.injEq, Prod.mk.injEq] at call
      exact .inl ⟨rfl, call.1.symm⟩
    · exact .inr ⟨same, by simpa only [State.goto, Function.update_of_ne same] using call⟩
  constructor
  · intro u v d e q r first second differ
    rcases before first with ⟨rfl, rfl⟩ | ⟨-, one⟩ <;> rcases before second with ⟨rfl, rfl⟩ | ⟨-, two⟩
    · exact absurd rfl differ
    · exact apart _ _ _ two
    · exact (apart _ _ _ one).symm
    · exact exclusive.apart one two differ
  · intro u d q h call rhs
    rcases before call with ⟨rfl, rfl⟩ | ⟨-, call⟩
    · exact (source h rhs).1
    · exact exclusive.distinct call rhs

/-! ### The invariant -/

structure Sound [Fintype H] [Fintype I] (s : State H I) : Prop extends Exclusive s where
  source : ∀ {t c p h}, s.running t = some (c, p) → c.op.copies = true → c.op.rhs = some h →
    s.rep h ≠ none
  dead : ∀ {h}, s.alive h = false → (∀ {t c p}, s.running t = some (c, p) → c.this ≠ h) →
    s.rep h = none
  expects : ∀ {t c p}, s.running t = some (c, p) → Expects s t c p
  born : ∀ {b r}, s.storage b = some r → b < s.allocated
  numbered : ∀ {h b}, s.rep h = some b → b < s.allocated
  live : ∀ {h b}, s.rep h = some b → ¬s.Hidden h → ∃ r, s.storage b = some r
  count : ∀ {b r}, s.storage b = some r → r.refCnt = (s.counted b).card
  past : ∀ b, Past s b

section
variable [Fintype H] [Fintype I]

omit [DecidableEq I] in
theorem mem_counted : h ∈ s.counted b ↔ s.rep h = some b ∧ ¬s.Hidden h := by
  simp [State.counted]

omit [DecidableEq I] in
theorem counted_pos {r : ArcStringRep} (sound : Sound s) (block : s.storage b = some r)
    (here : s.rep h = some b) (shown : ¬s.Hidden h) : 0 < r.refCnt := by
  rw [sound.count block]
  exact_mod_cast Finset.card_pos.mpr ⟨h, mem_counted.mpr ⟨here, shown⟩⟩

theorem source_shown (sound : Sound s) (here : s.running t = some (c, p)) (rhs : c.op.rhs = some h) :
    ¬s.Hidden h := by
  rintro ⟨u, hidden⟩
  by_cases same : u = t
  · subst same
    simp only [here, hides, Bool.and_eq_true, decide_eq_true_eq] at hidden
    exact sound.distinct here rhs hidden.2.symm
  · cases other : s.running u with
    | none => simp [other, hides] at hidden
    | some call =>
      obtain ⟨d, q⟩ := call
      simp only [other, hides, Bool.and_eq_true, decide_eq_true_eq] at hidden
      have apart := sound.apart other here same
      exact (apart h).1 (.inl hidden.2) (.inr rhs)

omit [DecidableEq I] in
theorem init_sound : Sound ({} : State H I) where
  apart call := by simp at call
  distinct call := by simp at call
  source call := by simp at call
  dead _ _ := rfl
  expects call := by simp at call
  born block := by simp at block
  numbered here := by simp at here
  live here := by simp at here
  count block := by simp at block
  past _ := .unborn rfl (Nat.zero_le _) rfl rfl

theorem Sound.start {c : Call H} (sound : Sound s) (idle : s.running t = none)
    (lawful : Lawful s (.start t c)) : Sound (s.goto t c c.op.first) := by
  have exclusive := sound.toExclusive.start lawful c.op.first
  obtain ⟨alive, source, apart⟩ := lawful
  have before : ∀ {u d q}, (s.goto t c c.op.first).running u = some (d, q) →
      u = t ∧ d = c ∧ q = c.op.first ∨ u ≠ t ∧ s.running u = some (d, q) := by
    intro u d q call
    by_cases same : u = t
    · subst same
      simp only [State.goto, Function.update_self, Option.some.injEq, Prod.mk.injEq] at call
      exact .inl ⟨rfl, call.1.symm, call.2.symm⟩
    · exact .inr ⟨same, by simpa only [State.goto, Function.update_of_ne same] using call⟩
  have after : ∀ {u d q}, s.running u = some (d, q) →
      (s.goto t c c.op.first).running u = some (d, q) := by
    intro u d q call
    have other : u ≠ t := fun same => by simp [same, idle] at call
    simpa only [State.goto, Function.update_of_ne other] using call
  have shown : c.op.first.hides = false := by
    unfold Op.first
    split <;> rfl
  have hidden : ∀ h, (s.goto t c c.op.first).Hidden h ↔ s.Hidden h := by
    intro h
    constructor
    · rintro ⟨u, conceals⟩
      cases call : (s.goto t c c.op.first).running u with
      | none => simp [call, hides] at conceals
      | some call' =>
        rw [call] at conceals
        rcases before call with ⟨-, first, point⟩ | ⟨-, old⟩
        · simp [hides, point, shown] at conceals
        · exact ⟨u, by rw [old]; exact conceals⟩
    · rintro ⟨u, conceals⟩
      cases call : s.running u with
      | none => simp [call, hides] at conceals
      | some call' => exact ⟨u, by rw [after call, ← call]; exact conceals⟩
  have counted : ∀ b, (s.goto t c c.op.first).counted b = s.counted b := fun b =>
    Finset.filter_congr fun h _ => by rw [hidden]; rfl
  refine ⟨exclusive, ?_, ?_, ?_, sound.born, sound.numbered, ?_, ?_, ?_⟩
  · intro u d q h call copies rhs
    rcases before call with ⟨-, rfl, -⟩ | ⟨-, old⟩
    · exact (source h rhs).2.2 copies
    · exact sound.source old copies rhs
  · intro h gone untouched
    exact sound.dead gone fun call => untouched (after call)
  · intro u d q call
    rcases before call with ⟨rfl, rfl, rfl⟩ | ⟨-, old⟩
    · unfold Op.first
      split
      · rename_i constructs
        refine ⟨fun op => by simp [op, Op.constructs] at constructs, ?_⟩
        rw [constructs] at alive
        exact sound.dead alive fun call => (apart _ _ _ call).this_ne
      · trivial
    · exact expects_congr rfl rfl rfl (sound.expects old)
  · intro h b here shown'
    exact sound.live here fun old => shown' ((hidden h).mpr old)
  · intro b r block
    rw [counted]
    exact sound.count block
  · intro b
    cases sound.past b with
    | unborn absent later zeroings deletions => exact .unborn absent later zeroings deletions
    | live block nonzero zeroings deletions => exact .live block nonzero zeroings deletions
    | dying block zero last here zeroings deletions =>
      exact .dying block zero (after last) here zeroings deletions
    | deleted absent earlier zeroings deletions => exact .deleted absent earlier zeroings deletions

/-! ### What a step keeps -/

omit [DecidableEq I] in
theorem not_counted_of_null (null : s.rep h = none) : h ∉ s.counted b := by
  simp [mem_counted, null]

theorem not_counted_of_hides (exclusive : Exclusive s) (here : s.running t = some (c, p)) (hides : p.hides = true) :
    c.this ∉ s.counted b := by
  rw [mem_counted, hidden_this exclusive here]
  simp [hides]

section
variable (taken : Taken s t c p s') (here : s.running t = some (c, p))
include taken here

theorem Taken.counted_other (other : h ≠ c.this) (kept : p = .vacate → c.op.rhs ≠ some h) :
    h ∈ s'.counted b ↔ h ∈ s.counted b := by
  obtain ⟨next, running, own⟩ := taken.running
  rw [mem_counted, mem_counted, taken.rep_eq other kept, hidden_other here running own other]

/-- What a step does to the handles a block counts, if it is no move or of another block. -/
theorem Taken.counted_rest
    (stays : p = .vacate → ∀ h, c.op.rhs = some h → s.rep h ≠ some b ∧ s'.rep h ≠ some b) :
    (s'.counted b).erase c.this = (s.counted b).erase c.this := by
  ext h
  simp only [Finset.mem_erase, ne_eq, and_congr_right_iff]
  intro other
  by_cases kept : p = .vacate → c.op.rhs ≠ some h
  · exact taken.counted_other here other kept
  · obtain ⟨vacates, rhs⟩ := Classical.not_imp.mp kept
    obtain ⟨old, new⟩ := stays vacates h (not_not.mp rhs)
    simp [mem_counted, old, new]

theorem Taken.counted_same
    (stays : p = .vacate → ∀ h, c.op.rhs = some h → s.rep h ≠ some b ∧ s'.rep h ≠ some b)
    (before : c.this ∉ s.counted b) (after : c.this ∉ s'.counted b) : s'.counted b = s.counted b := by
  have rest := taken.counted_rest here stays
  rwa [Finset.erase_eq_of_notMem before, Finset.erase_eq_of_notMem after] at rest

theorem Taken.counted_leaves (stays : p ≠ .vacate) (before : c.this ∈ s.counted b)
    (after : c.this ∉ s'.counted b) : (s.counted b).card = (s'.counted b).card + 1 := by
  have rest := taken.counted_rest (b := b) here fun vacates => absurd vacates stays
  rw [Finset.erase_eq_of_notMem after] at rest
  rw [rest, Finset.card_erase_add_one before]

theorem Taken.counted_enters (stays : p ≠ .vacate) (before : c.this ∉ s.counted b)
    (after : c.this ∈ s'.counted b) : (s'.counted b).card = (s.counted b).card + 1 := by
  have rest := taken.counted_rest (b := b) here fun vacates => absurd vacates stays
  rw [Finset.erase_eq_of_notMem before] at rest
  rw [← rest, Finset.card_erase_add_one after]

/-- The handle of the call stands in for the one it vacates. -/
theorem Taken.counted_moved (source : c.op.rhs = some h) (gone : s'.rep h = none)
    (took : c.this ∈ s'.counted b) : s'.counted b = insert c.this ((s.counted b).erase h) := by
  ext h'
  rw [Finset.mem_insert, Finset.mem_erase]
  by_cases first : h' = c.this
  · subst first
    simp [took]
  · by_cases second : h' = h
    · subst second
      simp [first, not_counted_of_null gone]
    · have kept : p = .vacate → c.op.rhs ≠ some h' := fun _ source' => second (Option.some.inj (source'.symm.trans source))
      rw [taken.counted_other here first kept]
      simp [first, second]

end

section
variable (sound : Sound s) (here : s.running t = some (c, p)) (taken : Taken s t c p s')

include sound here in
omit [DecidableEq I] in
theorem vacate_moves (point : p = .vacate) : c.op.moves = true := by
  subst point
  exact (sound.expects here).1

include sound here taken

/-- A block that counts no handle is left alone, but for its deletion. -/
theorem Taken.calm {r : ArcStringRep} (block : s.storage b = some r) (zero : r.refCnt = 0)
    (other : p = .delete → s.rep c.this ≠ some b) :
    s'.storage b = some r ∧ s'.zeroings b = s.zeroings b ∧ s'.deletions b = s.deletions b := by
  cases taken.onBlock b with
  | untouched storage zeroings deletions => exact ⟨storage.trans block, zeroings, deletions⟩
  | lowered points block' =>
    obtain rfl := Option.some.inj (block.symm.trans block')
    have shown : ¬s.Hidden c.this := by simp [hidden_this sound.toExclusive here, Point.hides]
    have pos := counted_pos sound block points shown
    omega
  | deleted points => exact absurd points (other rfl)
  | raised points block' =>
    obtain rfl := Option.some.inj (block.symm.trans block')
    obtain ⟨-, rhs, source, same⟩ := sound.expects here
    have pos := counted_pos sound block (same.trans points) (source_shown sound here source)
    omega
  | created number => exact absurd number (sound.born block).ne

theorem Taken.count {r : ArcStringRep} (block : s'.storage b = some r) : r.refCnt = (s'.counted b).card := by
  have exclusive := sound.toExclusive
  have expects := sound.expects here
  have same := fun stays before after => taken.counted_same (b := b) here stays before after
  have shown := hidden_this exclusive here
  have left : ∀ next, s'.running = Function.update s.running t next → hides c.this next = true →
      c.this ∉ s'.counted b := by
    intro next running hidden
    rw [mem_counted, hidden_after exclusive here running]
    simp [hidden]
  have joined : ∀ next, s'.running = Function.update s.running t next → hides c.this next = false →
      s'.rep c.this = some b → c.this ∈ s'.counted b := by
    intro next running hidden points
    rw [mem_counted, hidden_after exclusive here running]
    simp [hidden, points]
  have elsewhere : s'.rep c.this ≠ some b → c.this ∉ s'.counted b := by
    intro other
    simp [mem_counted, other]
  have moved := fun rhs source gone took => taken.counted_moved (b := b) (h := rhs) here source gone took
  have leaves := taken.counted_leaves (b := b) here
  have enters := taken.counted_enters (b := b) here
  -- `lower`, `create` and `raise` change one count together with one handle; the other points change
  -- neither, but for `vacate`, which counts `this` in place of the handle it empties
  cases taken with
  | skip first null =>
    rw [same (by rcases first with rfl | rfl <;> nofun) (not_counted_of_null null) (not_counted_of_null null)]
    exact sound.count block
  | @lower b' r' points block' =>
    have after := left (some (c, if r'.refCnt = 1 then .delete else .clear)) rfl
      (by split <;> simp [hides, Point.hides])
    rcases update_cases block with ⟨rfl, new⟩ | ⟨this, block⟩
    · have card := leaves nofun (mem_counted.mpr ⟨points, by simp [shown, Point.hides]⟩) after
      obtain rfl := Option.some.inj new
      have old := sound.count block'
      simp only
      omega
    · rw [same nofun (by simp [mem_counted, points, Ne.symm this]) after]
      exact sound.count block
  | @delete b' r' points block' =>
    rcases update_cases block with ⟨-, gone⟩ | ⟨-, block⟩
    · contradiction
    · rw [same nofun (not_counted_of_hides exclusive here rfl)
        (left (some (c, .clear)) rfl (by simp [hides, Point.hides]))]
      exact sound.count block
  | clear | release =>
    rw [same nofun (not_counted_of_hides exclusive here rfl)
      (not_counted_of_null (Function.update_self c.this _ _))]
    exact sound.count block
  | create op =>
    rcases update_cases block with ⟨rfl, new⟩ | ⟨this, block⟩
    · have uncounted : s.counted s.allocated = ∅ := by
        apply Finset.eq_empty_of_forall_notMem
        intro h member
        exact (sound.numbered (mem_counted.mp member).1).ne rfl
      have card := enters nofun (by simp [uncounted]) (joined none rfl rfl (Function.update_self c.this _ _))
      obtain rfl := Option.some.inj new
      rw [card, uncounted]
      rfl
    · have other : some s.allocated ≠ some b := fun number => this (Option.some.inj number).symm
      rw [same nofun (not_counted_of_null expects.2)
        (elsewhere ((Function.update_self c.this _ _).trans_ne other))]
      exact sound.count block
  | copy copies rhs | move moves rhs =>
    rw [same nofun (not_counted_of_null expects.2)
      (left (some (c, _)) rfl (by simp [hides]; rfl))]
    exact sound.count block
  | @raise b' r' points block' =>
    have before : c.this ∉ s.counted b := not_counted_of_hides exclusive here rfl
    rcases update_cases block with ⟨rfl, new⟩ | ⟨this, block⟩
    · have card := enters nofun before (joined none rfl rfl points)
      obtain rfl := Option.some.inj new
      have old := sound.count block'
      simp only
      omega
    · have other : some b' ≠ some b := fun number => this (Option.some.inj number).symm
      rw [same nofun before (elsewhere (points.trans_ne other))]
      exact sound.count block
  | @vacate rhs source =>
    have before : c.this ∉ s.counted b := not_counted_of_hides exclusive here rfl
    have points : s.rep rhs = s.rep c.this := by
      obtain ⟨-, rhs', source', points⟩ := expects
      obtain rfl := Option.some.inj (source.symm.trans source')
      exact points
    have apart : rhs ≠ c.this := sound.distinct here source
    by_cases this : s.rep c.this = some b
    · have gave : rhs ∈ s.counted b := mem_counted.mpr ⟨points.trans this, source_shown sound here source⟩
      have took := joined none rfl rfl ((Function.update_of_ne apart.symm _ _).trans this)
      rw [moved rhs source (Function.update_self rhs _ _) took,
        Finset.card_insert_of_notMem (fun member => before (Finset.mem_of_mem_erase member)),
        Finset.card_erase_add_one gave]
      exact sound.count block
    · rw [same ?_ before (elsewhere ((Function.update_of_ne apart.symm _ _).trans_ne this))]
      · exact sound.count block
      · intro _ h source'
        obtain rfl := Option.some.inj (source.symm.trans source')
        exact ⟨points.trans_ne this, (Function.update_self rhs _ _).trans_ne nofun⟩

theorem Taken.rep_used (other : s.running u = some (d, q)) (apart : u ≠ t) (uses : d.Uses h) :
    s'.rep h = s.rep h := by
  have free := (sound.apart here other (Ne.symm apart) h).1
  refine taken.rep_eq (fun same => free (.inl same.symm) uses) fun vacates rhs => ?_
  exact free (.inr ⟨vacate_moves sound here vacates, rhs⟩) uses

theorem Taken.source (call : s'.running u = some (d, q)) (copies : d.op.copies = true)
    (rhs : d.op.rhs = some h) : s'.rep h ≠ none := by
  obtain ⟨next, running, own⟩ := taken.running
  rw [running] at call
  by_cases same : u = t
  · subst same
    rw [Function.update_self] at call
    obtain rfl := own d q call
    have stays : p ≠ .vacate := by
      intro vacates
      have moves := vacate_moves sound here vacates
      cases op : d.op <;> simp_all [Op.copies, Op.moves]
    rw [taken.rep_eq (sound.distinct here rhs) fun vacates => absurd vacates stays]
    exact sound.source here copies rhs
  · rw [Function.update_of_ne same] at call
    rw [taken.rep_used sound here call same (.inr rhs)]
    exact sound.source call copies rhs

theorem Taken.dead (gone : s'.alive h = false)
    (untouched : ∀ {u d q}, s'.running u = some (d, q) → d.this ≠ h) : s'.rep h = none := by
  by_cases this : h = c.this
  · subst this
    have expects := sound.expects here
    cases taken with
    | skip | lower | delete | clear | copy | move =>
      exact absurd rfl (untouched (Function.update_self t _ _))
    | release => exact Function.update_self c.this _ _
    | create op | raise | vacate =>
      have last : c.op = .destroy := by
        have ended := (Function.update_self c.this _ _).symm.trans gone
        exact not_not.mp (of_decide_eq_false ended)
      first
        | exact nomatch op.symm.trans last
        | exact nomatch (congrArg Op.copies last).symm.trans expects.1
        | exact nomatch (congrArg Op.moves last).symm.trans expects.1
  · rw [taken.alive_eq this] at gone
    have before : s.rep h = none := by
      refine sound.dead gone fun {u d q} call same => ?_
      obtain ⟨next, running, own⟩ := taken.running
      have apart : u ≠ t := by
        rintro rfl
        obtain ⟨rfl, -⟩ := Prod.mk.inj (Option.some.inj (here.symm.trans call))
        exact this same.symm
      refine untouched (u := u) (d := d) (q := q) ?_ same
      rwa [running, Function.update_of_ne apart]
    by_cases kept : p = .vacate → c.op.rhs ≠ some h
    · exact (taken.rep_eq this kept).trans before
    · obtain ⟨rfl, rhs⟩ := Classical.not_imp.mp kept
      exact taken.vacated (not_not.mp rhs)

theorem Taken.expects (call : s'.running u = some (d, q)) : Expects s' u d q := by
  by_cases same : u = t
  -- the call goes on to its next point, and has just made sure of what it needs there
  · subst same
    have apart := fun rhs => sound.distinct (h := rhs) here
    have past := fun b => sound.past b
    cases taken with
    | skip | delete =>
      obtain ⟨rfl, rfl⟩ := Prod.mk.inj (Option.some.inj ((Function.update_self u _ _).symm.trans call))
      trivial
    | @lower b r points block =>
      obtain ⟨rfl, rfl⟩ := Prod.mk.inj (Option.some.inj ((Function.update_self u _ _).symm.trans call))
      split
      · rename_i last
        have unzeroed : s.zeroings b = [] := by
          cases sound.past b with
          | unborn absent => exact nomatch absent.symm.trans block
          | live _ _ zeroings => exact zeroings
          | dying block' zero => 
            obtain rfl := Option.some.inj (block.symm.trans block')
            exact nomatch last.symm.trans zero
          | deleted absent => exact nomatch absent.symm.trans block
        refine ⟨b, _, points, Function.update_self b _ _, ?_, ?_⟩
        · simp [last]
        · exact zeroings_lowered.trans (by simp [last]; exact unzeroed)
      · trivial
    | clear stays =>
      obtain ⟨rfl, rfl⟩ := Prod.mk.inj (Option.some.inj ((Function.update_self u _ _).symm.trans call))
      exact ⟨stays, Function.update_self c.this _ _⟩
    | @copy rhs kind source | @move rhs kind source =>
      obtain ⟨rfl, rfl⟩ := Prod.mk.inj (Option.some.inj ((Function.update_self u _ _).symm.trans call))
      refine ⟨kind, rhs, source, ?_⟩
      have kept := Function.update_of_ne (apart rhs source) (s.rep rhs) s.rep
      exact kept.trans (Function.update_self c.this _ s.rep).symm
    | release | create | raise | vacate =>
      exact nomatch (Function.update_self u _ _).symm.trans call
  · obtain ⟨next, running, own⟩ := taken.running
    rw [running, Function.update_of_ne same] at call
    have expects := sound.expects call
    have this := taken.rep_used sound here call same (.inl rfl)
    cases q with
    | lower | clear => trivial
    | store => exact ⟨expects.1, this.trans expects.2⟩
    | raise | vacate =>
      obtain ⟨kind, rhs, source, points⟩ := expects
      refine ⟨kind, rhs, source, ?_⟩
      rw [this, taken.rep_used sound here call same (.inr source), points]
    | delete =>
      obtain ⟨b, r, points, block, zero, zeroings⟩ := expects
      -- only the thread whose `fetch_sub` returned 1 deletes the block
      have mine : p = .delete → s.rep c.this ≠ some b := by
        rintro rfl points'
        obtain ⟨b', r', points'', -, -, zeroings'⟩ := sound.expects here
        obtain rfl := Option.some.inj (points'.symm.trans points'')
        exact same (List.singleton_inj.mp (zeroings.symm.trans zeroings'))
      obtain ⟨block', zeroings', -⟩ := taken.calm sound here block zero mine
      exact ⟨b, r, this.trans points, block', zero, zeroings'.trans zeroings⟩

theorem Taken.born {r : ArcStringRep} (block : s'.storage b = some r) : b < s'.allocated := by
  cases taken.onBlock b with
  | untouched storage => exact (sound.born (storage.symm.trans block)).trans_le taken.grown
  | lowered _ block _ _ _ same | raised _ block _ _ _ same => exact same ▸ sound.born block
  | deleted _ _ storage => exact nomatch storage.symm.trans block
  | created number _ _ _ grown => omega

/-- Every pointer is to the new block or comes from a pointer, a shown one from a shown one. -/
theorem Taken.pointed (points : s'.rep h = some b) :
    (b = s.allocated ∧ ∃ r, s'.storage b = some r) ∨
      ∃ h', s.rep h' = some b ∧ (¬s'.Hidden h → ¬s.Hidden h') := by
  by_cases this : h = c.this
  · subst this
    have expects := sound.expects here
    have hidden : ∀ next, s'.running = Function.update s.running t next → hides c.this next = true →
        s'.Hidden c.this := fun next running => (hidden_after sound.toExclusive here running).mpr
    have apart := fun rhs => sound.distinct (h := rhs) here
    have shown := fun rhs => source_shown (h := rhs) sound here
    cases taken with
    | skip | delete =>
      have conceals := hidden (some (c, .clear)) rfl (by simp [hides, Point.hides])
      exact .inr ⟨c.this, points, absurd conceals⟩
    | @lower _ r =>
      have conceals := hidden (some (c, if r.refCnt = 1 then .delete else .clear)) rfl
        (by split <;> simp [hides, Point.hides])
      exact .inr ⟨c.this, points, absurd conceals⟩
    | clear | release => exact nomatch (Function.update_self c.this _ _).symm.trans points
    | create =>
      obtain rfl := Option.some.inj ((Function.update_self c.this _ _).symm.trans points)
      exact .inl ⟨rfl, _, Function.update_self _ _ _⟩
    | copy _ source | move _ source =>
      have points' := (Function.update_self c.this _ _).symm.trans points
      exact .inr ⟨_, points', fun _ => shown _ source⟩
    | raise =>
      obtain ⟨-, rhs, source, same⟩ := expects
      exact .inr ⟨rhs, same.trans points, fun _ => shown rhs source⟩
    | vacate source =>
      have points' := (Function.update_of_ne (apart _ source).symm _ _).symm.trans points
      obtain ⟨-, rhs, source', same⟩ := expects
      exact .inr ⟨rhs, same.trans points', fun _ => shown rhs source'⟩
  · obtain ⟨next, running, own⟩ := taken.running
    by_cases kept : p = .vacate → c.op.rhs ≠ some h
    · rw [taken.rep_eq this kept] at points
      rw [hidden_other here running own this]
      exact .inr ⟨h, points, id⟩
    · obtain ⟨rfl, rhs⟩ := Classical.not_imp.mp kept
      rw [taken.vacated (not_not.mp rhs)] at points
      contradiction

theorem Taken.numbered (points : s'.rep h = some b) : b < s'.allocated := by
  rcases taken.pointed sound here points with ⟨-, r, block⟩ | ⟨h', points', -⟩
  · exact taken.born sound here block
  · exact (sound.numbered points').trans_le taken.grown

theorem Taken.live (points : s'.rep h = some b) (shown : ¬s'.Hidden h) : ∃ r, s'.storage b = some r := by
  rcases taken.pointed sound here points with ⟨-, block⟩ | ⟨h', points', shown'⟩
  · exact block
  · obtain ⟨r, block⟩ := sound.live points' (shown' shown)
    have positive := counted_pos sound block points' (shown' shown)
    cases taken.onBlock b with
    | untouched storage => exact ⟨r, storage.trans block⟩
    | lowered _ _ storage | raised _ _ storage | created _ storage => exact ⟨_, storage⟩
    | deleted here' block' =>
      obtain ⟨b', r', here'', block'', zero, -⟩ := sound.expects here
      obtain rfl := Option.some.inj (here'.symm.trans here'')
      obtain rfl := Option.some.inj (block'.symm.trans block'')
      obtain rfl := Option.some.inj (block.symm.trans block'')
      omega

theorem Taken.past (b : ℕ) : Past s' b := by
  have onBlock := taken.onBlock b
  -- a block goes through the stages in one direction only
  cases sound.past b with
  | unborn absent later zeroings deletions =>
    cases onBlock with
    | untouched storage zeroings' deletions' unborn =>
      exact .unborn (storage.trans absent) (unborn later) (zeroings'.trans zeroings)
        (deletions'.trans deletions)
    | lowered _ block | deleted _ block | raised _ block => exact nomatch absent.symm.trans block
    | created _ storage zeroings' deletions' =>
      exact .live storage one_ne_zero (zeroings'.trans zeroings) (deletions'.trans deletions)
  | @live r block nonzero zeroings deletions =>
    cases onBlock with
    | untouched storage zeroings' deletions' =>
      exact .live (storage.trans block) nonzero (zeroings'.trans zeroings) (deletions'.trans deletions)
    | lowered points block' storage zeroings' deletions' _ rep next =>
      obtain rfl := Option.some.inj (block.symm.trans block')
      rw [zeroings, List.nil_append] at zeroings'
      by_cases one : r.refCnt = 1
      · rw [if_pos one] at zeroings'
        have points' := (congrFun rep c.this).trans points
        exact .dying storage (by simp [one]) (next one) points' zeroings' (deletions'.trans deletions)
      · rw [if_neg one] at zeroings'
        exact .live storage (sub_ne_zero.mpr one) zeroings' (deletions'.trans deletions)
    | deleted points block' =>
      obtain ⟨b', r', points', block'', zero, -⟩ := sound.expects here
      obtain rfl := Option.some.inj (points.symm.trans points')
      obtain rfl := Option.some.inj (block.symm.trans block'')
      exact absurd zero nonzero
    | raised _ block' storage zeroings' deletions' =>
      have count := sound.count block'
      exact .live storage (by simp only; omega) (zeroings'.trans zeroings) (deletions'.trans deletions)
    | created number => exact absurd number (sound.born block).ne
  | @dying r u d block zero last here' zeroings deletions =>
    by_cases mine : p = .delete → s.rep c.this ≠ some b
    · obtain ⟨block', zeroings', deletions'⟩ := taken.calm sound here block zero mine
      have apart : u ≠ t := by
        rintro rfl
        obtain ⟨rfl, rfl⟩ := Prod.mk.inj (Option.some.inj (here.symm.trans last))
        exact mine rfl here'
      obtain ⟨next, running, -⟩ := taken.running
      refine .dying block' zero (t := u) (c := d) ?_ ?_ (zeroings'.trans zeroings)
        (deletions'.trans deletions)
      · rw [running, Function.update_of_ne apart, last]
      · rw [taken.rep_used sound here last apart (.inl rfl), here']
    · obtain ⟨rfl, points⟩ := Classical.not_imp.mp mine
      rw [not_not] at points
      obtain ⟨b', r', points', -, -, zeroings''⟩ := sound.expects here
      obtain rfl := Option.some.inj (points.symm.trans points')
      cases onBlock with
      | untouched _ _ _ _ other => exact absurd points (other rfl)
      | deleted _ _ storage zeroings' deletions' same =>
        rw [deletions] at deletions'
        exact .deleted storage (same ▸ sound.born block) (zeroings'.trans zeroings'') deletions'
  | deleted absent earlier zeroings deletions =>
    cases onBlock with
    | untouched storage zeroings' deletions' =>
      exact .deleted (storage.trans absent) (earlier.trans_le taken.grown) (zeroings'.trans zeroings)
        (deletions'.trans deletions)
    | lowered _ block | deleted _ block | raised _ block => exact nomatch absent.symm.trans block
    | created number => exact absurd number earlier.ne

theorem Taken.keeps : Sound s' where
  toExclusive := sound.toExclusive.taken here taken
  source := taken.source sound here
  dead := taken.dead sound here
  expects := taken.expects sound here
  born := taken.born sound here
  numbered := taken.numbered sound here
  live := taken.live sound here
  count := taken.count sound here
  past := taken.past sound here

end

end

end Celestite.ArcString
