import Celestite.RingBuffer.Objects

/-!
# Operations on buffers of any capacity

A buffer without a slot is full and empty at once. `push` refuses it; the calls that make room first
pop from it.
-/

namespace Celestite.RingBuffer
open Concurrency Celestite.Sequential

variable {O T : Type} {rb : RingBuffer T} {xs : List T} {m : Member T}

/-- A buffer that holds elements in its slots, or has none. -/
inductive Kept (rb : RingBuffer T) : Prop where
  | some (xs : List T) (represents : Represents rb xs)
  | none (vacant : rb = { max := 0 })

/-- The calls that may be made: those that take an element out, or refer to one, need it, and `clear`
leaves elements behind where there are more than one. -/
def Callable (rb : RingBuffer T) : Member T → Prop
  | .pop | .popBack | .front | .back => 0 < rb.count
  | .get i => i < rb.count
  | .clear => rb.count ≤ 1
  | .insert .. | .getAt _ | .size | .empty => True

def Roomy (rb : RingBuffer T) : Member T → Prop
  | .insert op _ => op ≠ .push → 0 < rb.max
  | _ => True

def Lowers (rb : RingBuffer T) : Member T → Prop
  | .pop | .popBack => True
  | .insert op _ => op ≠ .push ∧ rb.count = rb.max
  | .clear => 0 < rb.count
  | _ => False

/-- The argument refers to an element that is gone when the constructor of the new one runs. -/
def Dangles (rb : RingBuffer T) : Member T → Prop
  | .insert .push arg => arg rb.slots = .dangling
  | .insert _ arg => ∃ mid, popIfFull rb = .ok () mid ∧ arg mid.slots = .dangling
  | _ => False

def Returns (rb : RingBuffer T) (m : Member T) : Prop :=
  ∃ rb', (member m rb = .ok () rb' ∨ ∃ e, member m rb = .threw e rb') ∧ Kept rb'

/-- The call does nothing undefined but to read an argument that dangles. -/
def Fine (rb : RingBuffer T) (m : Member T) : Prop :=
  Returns rb m ∨ member m rb = .undefined .notConstructed ∧ Dangles rb m

namespace Represents

theorem fine_ends (h : Represents rb xs) {mid : RingBuffer T} {ys : List T} (rest : Represents mid ys)
    {op : Insertion} {arg : Arg T} (gone : arg mid.slots = .dangling → Dangles rb (.insert op arg))
    (run : insert op arg rb = ends op arg rb mid) : Fine rb (.insert op arg) := by
  unfold ends at run
  cases read : arg mid.slots with
  | value v =>
    rw [read] at run
    change insert op arg rb = call (op.call v) rb at run
    rw [← insert_plain] at run
    obtain ⟨r, r', ys, rb', plain, -, after, -⟩ := h.insert_plain_run op v
    exact .inl ⟨rb', .inl (by simp [member, run, plain]), .some ys after⟩
  | threw =>
    rw [read] at run
    exact .inl ⟨mid, .inr ⟨.element, by simp [member, run]⟩, .some ys rest⟩
  | dangling =>
    rw [read] at run
    exact .inr ⟨by simp [member, run], gone read⟩

theorem dangles_of_made {mid : RingBuffer T} {op : Insertion} (other : op ≠ .push) {arg : Arg T}
    (made : popIfFull rb = .ok () mid) (read : arg mid.slots = .dangling) : Dangles rb (.insert op arg) := by
  cases op with
  | push => contradiction
  | pushOverwrite | emplace => exact ⟨mid, made, read⟩

theorem fine_insert (h : Represents rb xs) (op : Insertion) (arg : Arg T) : Fine rb (.insert op arg) := by
  by_cases push : op = .push
  · subst push
    have run : insert .push arg rb = _ := h.insert_push
    by_cases full : xs.length = rb.max
    · rw [if_pos full] at run
      exact .inl ⟨rb, .inl (by simp [member, run]), .some xs h⟩
    · rw [if_neg full] at run
      exact h.fine_ends h id run
  · by_cases full : xs.length = rb.max
    · obtain ⟨made, rest⟩ := h.popIfFull_full full
      have pos := h.pos
      exact h.fine_ends rest (dangles_of_made push made)
        (insert_overwrite push made rest (by simp only [List.length_tail]; omega))
    · have made := h.popIfFull_room full
      exact h.fine_ends h (dangles_of_made push made)
        (insert_overwrite push made h (lt_of_le_of_ne h.length full))

theorem fine (h : Represents rb xs) (callable : Callable rb m) : Fine rb m := by
  cases m with
  | insert op arg => exact h.fine_insert op arg
  | pop =>
    obtain ⟨x, ys, rfl⟩ := List.exists_cons_of_ne_nil (h.held_iff.mp callable)
    exact .inl ⟨_, .inl h.pop_run, .some ys h.tail⟩
  | popBack =>
    have held := h.held_iff.mp callable
    exact .inl ⟨_, .inl (h.popBack_run held), .some _ (h.dropLast held)⟩
  | get i =>
    have inside : i < xs.length := h.count ▸ callable
    exact .inl ⟨rb, .inl (by simp [member, h.get_run inside]), .some xs h⟩
  | getAt i =>
    refine .inl ⟨rb, ?_, .some xs h⟩
    by_cases inside : i < xs.length
    · exact .inl (by simp [member, getAt, h.count, Nat.not_le.mpr inside, h.get_run inside])
    · exact .inr ⟨.outOfRange, by simp [member, getAt, h.count, Nat.not_lt.mp inside]⟩
  | front =>
    have held := List.length_pos_iff.mpr (h.held_iff.mp callable)
    exact .inl ⟨rb, .inl (by simp [member, front, h.get_run held]), .some xs h⟩
  | back =>
    have held := h.held_iff.mp callable
    have inside : xs.length - 1 < xs.length := by have := List.length_pos_iff.mpr held; omega
    exact .inl ⟨rb, .inl (by simp [member, back, h.decrement held, h.get_run inside]), .some xs h⟩
  | size | empty => exact .inl ⟨rb, .inl rfl, .some xs h⟩
  | clear => exact .inl ⟨_, .inl h.clear_run, .some [] (h.cleared_small (h.count ▸ callable))⟩

end Represents

theorem insert_vacant {op : Insertion} (arg : Arg T) (other : op ≠ .push) :
    insert op arg ({ max := 0 } : RingBuffer T) = .undefined .outsideBlock := by
  cases op with
  | push => contradiction
  | pushOverwrite | emplace => rfl

theorem Kept.fine_or (kept : Kept rb) (callable : Callable rb m) :
    Fine rb m ∧ Roomy rb m ∨ member m rb = .undefined .outsideBlock ∧ ¬Roomy rb m := by
  cases kept with
  | some xs h =>
    refine .inl ⟨h.fine callable, ?_⟩
    cases m with
    | insert op arg => exact fun _ => h.pos
    | _ => trivial
  | none vacant =>
    subst vacant
    cases m with
    | insert op arg =>
      by_cases push : op = .push
      · subst push
        exact .inl ⟨.inl ⟨_, .inl rfl, .none rfl⟩, fun other => absurd rfl other⟩
      · refine .inr ⟨?_, fun roomy => absurd (roomy push) (lt_irrefl 0)⟩
        simp [member, insert_vacant arg push]
    | pop | popBack | front | back => exact absurd callable (lt_irrefl 0)
    | get i => exact absurd callable (Nat.not_lt_zero i)
    | getAt i => exact .inl ⟨.inl ⟨_, .inr ⟨.outOfRange, by simp [member, getAt]⟩, .none rfl⟩, trivial⟩
    | size | empty | clear => exact .inl ⟨.inl ⟨_, .inl rfl, .none rfl⟩, trivial⟩

theorem Kept.of_ran {rb' : RingBuffer T} (kept : Kept rb) (callable : Callable rb m)
    (ran : member m rb = .ok () rb' ∨ ∃ e, member m rb = .threw e rb') : Kept rb' := by
  have defined : ∀ x, member m rb ≠ .undefined x := by
    intro x eq
    rcases ran with ran | ⟨e, ran⟩ <;> simp [ran] at eq
  rcases kept.fine_or callable with ⟨⟨rb'', ran', kept'⟩ | ⟨eq, -⟩, -⟩ | ⟨eq, -⟩
  · have same : rb' = rb'' := by
      rcases ran with ran | ⟨e, ran⟩ <;> rcases ran' with ran' | ⟨e', ran'⟩ <;> simp_all
    exact same ▸ kept'
  · exact absurd eq (defined _)
  · exact absurd eq (defined _)

theorem Kept.count_le (kept : Kept rb) : rb.count ≤ rb.max := by
  cases kept with
  | some xs h => exact h.count ▸ h.length
  | none vacant =>
    subst vacant
    exact le_rfl

theorem pos_of_lowers (callable : Callable rb m) (roomy : Roomy rb m)
    (lowers : Lowers rb m) : 0 < rb.count := by
  cases m with
  | pop | popBack => exact callable
  | insert op arg => exact lowers.2 ▸ roomy lowers.1
  | clear => exact lowers
  | get | getAt | front | back | size | empty => exact absurd lowers id

theorem Kept.clear (kept : Kept rb) : ∃ rb', RingBuffer.clear rb = .ok () rb' ∧ rb'.count ≤ rb.count := by
  cases kept with
  | some xs h => exact ⟨_, h.clear_run, Nat.sub_le _ _⟩
  | none vacant =>
    subst vacant
    exact ⟨_, rfl, le_rfl⟩

/-! ### Runs -/

variable [DecidableEq O] {s s' : State O T} {a : Act O T}

def Permitted (s : State O T) : Act O T → Prop
  | .call this m => ∀ b, s.objects this = some b → Callable b.rb m
  | a => Lawful s a

def HasRoom (s : State O T) : Act O T → Prop
  | .call this m => ∀ b, s.objects this = some b → Roomy b.rb m
  | _ => True

def Safe (s : State O T) (a : Act O T) : Prop := Permitted s a ∧ HasRoom s a

instance (rb : RingBuffer T) (m : Member T) : Decidable (Callable rb m) :=
  match m with
  | .pop | .popBack | .front | .back => inferInstanceAs (Decidable (0 < rb.count))
  | .get i => inferInstanceAs (Decidable (i < rb.count))
  | .clear => inferInstanceAs (Decidable (rb.count ≤ 1))
  | .insert .. | .getAt _ | .size | .empty => isTrue trivial

instance (rb : RingBuffer T) (m : Member T) : Decidable (Roomy rb m) :=
  match m with
  | .insert op _ => inferInstanceAs (Decidable (op ≠ .push → 0 < rb.max))
  | .pop | .popBack | .get _ | .getAt _ | .front | .back | .size | .empty | .clear => isTrue trivial

instance (s : State O T) (a : Act O T) : Decidable (Permitted s a) :=
  match a with
  | .call this m => inferInstanceAs (Decidable (∀ b ∈ s.objects this, Callable b.rb m))
  | .construct this max address => inferInstanceAs (Decidable (Lawful s (.construct this max address)))
  | .moveConstruct .. | .moveAssign .. | .destroy _ => isTrue trivial

instance (s : State O T) (a : Act O T) : Decidable (HasRoom s a) :=
  match a with
  | .call this m => inferInstanceAs (Decidable (∀ b ∈ s.objects this, Roomy b.rb m))
  | .construct .. | .moveConstruct .. | .moveAssign .. | .destroy _ => isTrue trivial

instance (s : State O T) (a : Act O T) : Decidable (Safe s a) := inferInstanceAs (Decidable (_ ∧ _))

def AllKept (s : State O T) : Prop := ∀ o b, s.objects o = some b → Kept b.rb

theorem AllKept.put {this : O} {x : Option (Object T)} (others : ∀ o b, o ≠ this → s.objects o = some b → Kept b.rb)
    (fits : ∀ b, x = some b → Kept b.rb) : AllKept (s.put this x) :=
  forall_update (P := fun b : Object T => Kept b.rb) others fits

theorem AllKept.take {this rhs : O} {source : Object T} (others : ∀ o b, o ≠ this → s.objects o = some b → Kept b.rb)
    (fits : rhs ≠ this → Kept source.rb) : AllKept ((s.put this (some source)).put rhs (some .vacant)) := by
  refine AllKept.put (fun o b emptied there => ?_) fun b same => ?_
  -- the buffer that was moved to itself is the one that is emptied
  · by_cases moved : rhs = this
    · rw [moved] at emptied
      exact others o b emptied ((Function.update_of_ne emptied _ _).symm.trans there)
    · exact AllKept.put others (fun b same => Option.some.inj same ▸ fits moved) o b there
  · obtain rfl := Option.some.inj same
    exact .none rfl

theorem AllKept.dismantled (kept : AllKept s) {this : O} {b : Object T} :
    ∀ o b', o ≠ this → (s.dismantled this b).objects o = some b' → Kept b'.rb := by
  intro o b' other there
  exact kept o b' ((Function.update_of_ne other _ _).symm.trans there)

theorem AllKept.step (kept : AllKept s) (permitted : Permitted s a) (stepped : Stepped s a s') : AllKept s' := by
  cases stepped with
  | @construct this max address free =>
    refine AllKept.put (fun o b _ => kept o b) fun b same => ?_
    obtain rfl := Option.some.inj same
    rcases Nat.eq_zero_or_pos max with rfl | pos
    · exact .none rfl
    · exact .some [] (.init pos permitted.1)
  | @call this m b rb here ran =>
    refine AllKept.put (fun o b _ => kept o b) fun b' same => ?_
    obtain rfl := Option.some.inj same
    exact (kept this b here).of_ran (permitted b here) ran
  | @moveConstruct this rhs source free there =>
    exact AllKept.take (fun o b _ => kept o b) fun _ => kept rhs source there
  | @moveAssign this rhs b source rb here ran there =>
    apply AllKept.take kept.dismantled
    intro other
    exact kept.dismantled rhs source other there
  | destroy here ran => exact AllKept.put kept.dismantled fun _ gone => by simp at gone

theorem allKept_of_permitted (reached : (population O T).Reaches Permitted s) : AllKept s :=
  reached.invariant (I := AllKept) (fun _ _ there => by simp [population] at there)
    fun _ kept permitted taken => kept.step permitted (step_stepped taken)

def Defined (s : State O T) (a : Act O T) : Prop := ∀ x, s.attempt a = some (.undefined x) →
  x = .notConstructed ∧ ∃ this m b, a = .call this m ∧ s.objects this = some b ∧ Dangles b.rb m

theorem AllKept.clear_defined (kept : AllKept s) {this : O} {f : State O T → Option (State O T)} {x : Fault} :
    ((s.objects this).bind fun b => (s.runs this b RingBuffer.clear).next f) ≠ some (.undefined x) := by
  intro tried
  obtain ⟨b, here, tried⟩ := Option.bind_eq_some_iff.mp tried
  obtain ⟨rb', run, -⟩ := (kept this b here).clear
  rcases clear_next tried with ⟨rb, s', -, -, eq⟩ | ⟨x', undefined, -⟩
  · cases eq
  · simp [run] at undefined

theorem AllKept.call_defined (kept : AllKept s) {this : O} {m : Member T} (permitted : Permitted s (.call this m)) :
    Defined s (.call this m) ↔ HasRoom s (.call this m) := by
  constructor
  · intro defined b here
    rcases (kept this b here).fine_or (permitted b here) with ⟨-, roomy⟩ | ⟨undefined, -⟩
    · exact roomy
    · have tried : s.attempt (.call this m) = some (.undefined .outsideBlock) := by
        simp [State.attempt, here, State.runs, Program.focus, undefined]
      exact absurd (defined _ tried).1 (by decide)
  · intro roomy x tried
    obtain ⟨b, here, eq⟩ := Option.map_eq_some_iff.mp tried
    rcases (kept this b here).fine_or (permitted b here) with ⟨fine, -⟩ | ⟨-, vacant⟩
    · have undefined : member m b.rb = .undefined x := by
        rcases runs_cases s this b (member m) with ⟨rb, -, eq'⟩ | ⟨e, rb, -, eq'⟩ | ⟨x', run, eq'⟩
        · cases eq'.symm.trans eq
        · cases eq'.symm.trans eq
        · cases eq'.symm.trans eq
          exact run
      rcases fine with ⟨rb', ran | ⟨e, ran⟩, -⟩ | ⟨fault, dangles⟩
      · simp [ran] at undefined
      · simp [ran] at undefined
      · rw [fault] at undefined
        cases undefined
        exact ⟨rfl, this, m, b, rfl, here, dangles⟩
    · exact absurd (roomy b here) vacant

theorem AllKept.defined_iff (kept : AllKept s) (permitted : Permitted s a) : Defined s a ↔ HasRoom s a := by
  cases a with
  | construct this max address | moveConstruct this rhs =>
    refine iff_of_true (fun x tried => ?_) trivial
    obtain ⟨s', -, eq⟩ := Option.map_eq_some_iff.mp tried
    cases eq
  | call this m => exact kept.call_defined permitted
  | moveAssign this rhs | destroy this =>
    exact iff_of_true (fun x tried => absurd tried kept.clear_defined) trivial

/-- In runs whose calls have the slot they need, no operation does anything undefined, none lowers
`count_` below zero, and no buffer holds more than its capacity; and a call without its slot does. -/
theorem defined_iff_hasRoom :
    (∀ s : State O T, (population O T).Reaches Safe s →
      (∀ o b, s.objects o = some b → b.rb.count ≤ b.rb.max) ∧
      (∀ a, Safe s a → Defined s a) ∧
      (∀ this m b, Safe s (.call this m) → s.objects this = some b → Lowers b.rb m → 0 < b.rb.count) ∧
      ∀ o b, s.objects o = some b → ∃ rb, clear b.rb = .ok () rb ∧ rb.count ≤ b.rb.count) ∧
    ∀ s : State O T, (population O T).Reaches Permitted s → ∀ a, Permitted s a →
      (Defined s a ↔ HasRoom s a) := by
  refine ⟨fun s reached => ?_, fun s reached a permitted => (allKept_of_permitted reached).defined_iff permitted⟩
  have kept := allKept_of_permitted (reached.mono fun _ _ safe => safe.1)
  refine ⟨fun o b there => (kept o b there).count_le, fun a safe => (kept.defined_iff safe.1).mpr safe.2, ?_,
    fun o b there => (kept o b there).clear⟩
  intro this m b safe here lowers
  exact pos_of_lowers (safe.1 b here) (safe.2 b here) lowers

/-- A buffer is moved from, and refuses an element. -/
theorem defined_iff_hasRoom_moved : ∃ s : State (Fin 2) ℕ, (population (Fin 2) ℕ).Reaches Safe s ∧
    (s.objects 0).map (fun b => (b.rb.count, b.rb.max)) = some (0, 0) ∧
    Defined s (.call 0 (.insert .push (plain 6))) := by
  obtain ⟨s, ran, facts⟩ : ∃ s, (population (Fin 2) ℕ).run Safe (population (Fin 2) ℕ).init
      [.construct 0 1 64, .call 0 (.insert .emplace (plain 5)), .call 0 (.insert .emplace (plain 7)),
       .moveConstruct 1 0, .call 0 (.insert .push (plain 6))] = some s ∧
      (s.objects 0).map (fun b => (b.rb.count, b.rb.max)) = some (0, 0) ∧
      Safe s (.call 0 (.insert .push (plain 6))) := ⟨_, rfl, rfl, by decide⟩
  have reached := Lts.run_reaches _ .init ran
  obtain ⟨-, safe, -⟩ := (defined_iff_hasRoom (O := Fin 2) (T := ℕ)).1 s reached
  exact ⟨s, reached, facts.1, safe _ facts.2⟩

/-- `emplace` pops from a buffer of capacity zero, and `push_overwrite` from one that was moved from. -/
theorem popped_without_slots : ∃ s : State (Fin 3) ℕ, (population (Fin 3) ℕ).Reaches Permitted s ∧
    Permitted s (.call 0 (.insert .emplace (plain 5))) ∧
    s.attempt (.call 0 (.insert .emplace (plain 5))) = some (.undefined .outsideBlock) ∧
    Permitted s (.call 1 (.insert .pushOverwrite (plain 5))) ∧
    s.attempt (.call 1 (.insert .pushOverwrite (plain 5))) = some (.undefined .outsideBlock) := by
  obtain ⟨s, ran, facts⟩ : ∃ s, (population (Fin 3) ℕ).run Permitted (population (Fin 3) ℕ).init
      [.construct 0 0 64, .construct 1 2 128, .moveConstruct 2 1] = some s ∧
      Permitted s (.call 0 (.insert .emplace (plain 5))) ∧
      s.attempt (.call 0 (.insert .emplace (plain 5))) = some (.undefined .outsideBlock) ∧
      Permitted s (.call 1 (.insert .pushOverwrite (plain 5))) ∧
      s.attempt (.call 1 (.insert .pushOverwrite (plain 5))) = some (.undefined .outsideBlock) :=
    ⟨_, rfl, by decide, rfl, by decide, rfl⟩
  exact ⟨s, Lts.run_reaches _ .init ran, facts⟩

end Celestite.RingBuffer
