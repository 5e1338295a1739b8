import Celestite.RingBuffer.Arguments
import Celestite.RingBuffer.Clear
import Celestite.Sequential.Ownership

/-!
# Populations of ring buffers

Construction, moves and destruction, with the blocks of storage that pass through them.
-/

namespace Celestite.RingBuffer
open Concurrency Celestite.Sequential

/-- A block as `allocate` returned it, or as it is given to `deallocate`. -/
structure Block where
  address : ℕ
  max : ℕ
  deriving DecidableEq

/-- `data_()`, and the other fields with the slots it points to. -/
structure Object (T : Type) where
  data : Option ℕ
  rb : RingBuffer T

namespace Object
variable {T : Type}

def block (b : Object T) : Option Block := b.data.map fun address => ⟨address, b.rb.max⟩

def vacant : Object T := { data := none, rb := { max := 0 } }

end Object

/-- The member functions that leave the storage where it is. -/
inductive Member (T : Type) where
  | insert (op : Insertion) (arg : Arg T)
  | pop
  | popBack
  | get (i : ℕ)
  | getAt (i : ℕ)
  | front
  | back
  | size
  | empty
  | clear

def member {T : Type} : Member T → Op T Unit
  | .insert op arg => do let _ ← RingBuffer.insert op arg
  | .pop => RingBuffer.pop
  | .popBack => RingBuffer.popBack
  | .get i => do let _ ← RingBuffer.get i
  | .getAt i => do let _ ← RingBuffer.getAt i
  | .front => do let _ ← RingBuffer.front
  | .back => do let _ ← RingBuffer.back
  | .size => do let _ ← RingBuffer.size
  | .empty => do let _ ← RingBuffer.empty
  | .clear => RingBuffer.clear

structure State (O T : Type) where
  objects : O → Option (Object T) := fun _ => none
  log : List (Use Block) := []
  /-- What was in each block when it was deallocated. -/
  dropped : List (RingBuffer T) := []

inductive Act (O T : Type) where
  /-- `RingBuffer(max)`, with the address that `allocate` returns. -/
  | construct (this : O) (max address : ℕ)
  | call (this : O) (m : Member T)
  | moveConstruct (this rhs : O)
  | moveAssign (this rhs : O)
  | destroy (this : O)

variable {O T : Type}

namespace State
variable [DecidableEq O] (s : State O T) (this rhs : O)

def put (x : Option (Object T)) : State O T := { s with objects := Function.update s.objects this x }

def construct (max address : ℕ) : Option (State O T) :=
  if (s.objects this).isNone then
    some { s.put this (some { data := some address, rb := { max := max } }) with
      log := s.log ++ [.acquired ⟨address, max⟩] }
  else none

def runs (b : Object T) (p : Op T Unit) : Outcome (State O T) Error Fault Unit :=
  p.focus (fun _ => b.rb) (fun s rb => s.put this (some { b with rb := rb })) s

/-- `alloc_traits::deallocate(alloc_(), data_(), max_);`, nothing for the null pointer. -/
def deallocate : Option (State O T) := do
  let b ← s.objects this
  return { s with
    log := s.log ++ b.block.toList.map .released
    dropped := s.dropped ++ b.block.toList.map fun _ => b.rb }

/-- The fields of `rhs` are copied, then set to null and zero. -/
def take : Option (State O T) := do
  let source ← s.objects rhs
  let s := s.put this (some source)
  let _ ← s.objects rhs
  return s.put rhs (some .vacant)

def moveConstruct : Option (State O T) := if (s.objects this).isNone then s.take this rhs else none

def moveAssign : Option (Outcome (State O T) Error Fault Unit) := do
  let b ← s.objects this
  (s.runs this b clear).next fun s => do
    let s ← s.deallocate this
    s.take this rhs

def destroy : Option (Outcome (State O T) Error Fault Unit) := do
  let b ← s.objects this
  (s.runs this b clear).next fun s => do
    let s ← s.deallocate this
    return s.put this none

/-- How an operation on a population ends; none where an object is missing or in the way. -/
def attempt : Act O T → Option (Outcome (State O T) Error Fault Unit)
  | .construct this max address => (s.construct this max address).map (.ok ())
  | .call this m => (s.objects this).map fun b => s.runs this b (member m)
  | .moveConstruct this rhs => (s.moveConstruct this rhs).map (.ok ())
  | .moveAssign this rhs => s.moveAssign this rhs
  | .destroy this => s.destroy this

end State

/-- A run goes on after an operation that returns or throws. -/
def population (O T : Type) [DecidableEq O] : Lts (State O T) (Act O T) where
  init := {}
  step s a :=
    match s.attempt a with
    | some (.ok _ s') | some (.threw _ s') => some s'
    | _ => none

/-- `allocate` grants no more than its limit, and no block that is still live. -/
def Lawful (s : State O T) : Act O T → Prop
  | .construct _ max address => max ≤ allocatorLimit ∧ ∀ k, Live s.log k → k.address ≠ address
  | _ => True

instance (s : State O T) (a : Act O T) : Decidable (Lawful s a) :=
  match a with
  | .construct _ max address =>
    decidable_of_iff
      (max ≤ allocatorLimit ∧ ∀ k ∈ s.log.map Use.key, Live s.log k → k.address ≠ address)
      (and_congr_right fun _ => ⟨fun all k live => all k (mem_of_live live) live, fun all k _ => all k⟩)
  | .call .. | .moveConstruct .. | .moveAssign .. | .destroy _ => isTrue trivial

/-! ### What the operations leave alone -/

theorem modMax_preserves (n : ℕ) : (modMax n : Op T ℕ).Preserves max :=
  .bind (.read _) fun _ => .bind (.require _ _) fun _ => .pure _

theorem endSlot_preserves : (endSlot : Op T ℕ).Preserves max := .bind (.read _) fun _ => modMax_preserves _

theorem destroy_preserves (i : ℕ) : (destroy i : Op T Unit).Preserves max :=
  .bind (.read _) fun _ => .bind (.require _ _) fun _ => .bind (.require _ _) fun _ => .update fun _ => rfl

theorem construct_preserves (i : ℕ) (arg : Arg T) : (construct i arg).Preserves max := by
  refine .bind (.read _) fun rb => .bind (.require _ _) fun _ => .bind (.require _ _) fun _ => ?_
  split
  · exact .update fun _ => rfl
  · exact .throw _
  · exact .require _ _

theorem incrementCount_preserves : (incrementCount : Op T Unit).Preserves max := .update fun _ => rfl

theorem decrementCount_preserves : (decrementCount : Op T Unit).Preserves max := .update fun _ => rfl

theorem pop_preserves : (pop : Op T Unit).Preserves max :=
  .bind (.read _) fun _ => .bind (destroy_preserves _) fun _ => .bind (modMax_preserves _) fun _ =>
    .bind (.update fun _ => rfl) fun _ => decrementCount_preserves

theorem popBack_preserves : (popBack : Op T Unit).Preserves max :=
  .bind (.read _) fun _ => .bind (modMax_preserves _) fun _ => .bind (destroy_preserves _) fun _ =>
    decrementCount_preserves

theorem popIfFull_preserves : (popIfFull : Op T Unit).Preserves max := by
  refine .bind (.read _) fun rb => ?_
  split
  · exact pop_preserves
  · exact .pure _

theorem insert_preserves (op : Insertion) (arg : Arg T) : (insert op arg).Preserves max := by
  have built : (do construct (← endSlot) arg; incrementCount : Op T Unit).Preserves max :=
    .bind endSlot_preserves fun _ => .bind (construct_preserves _ _) fun _ => incrementCount_preserves
  cases op with
  | push =>
    refine .bind (.bind (.read _) fun rb => ?_) fun _ => .pure _
    split
    · exact .pure _
    · exact .bind endSlot_preserves fun _ => .bind (construct_preserves _ _) fun _ =>
        .bind incrementCount_preserves fun _ => .pure _
  | pushOverwrite => exact .bind (.bind popIfFull_preserves fun _ => built) fun _ => .pure _
  | emplace =>
    exact .bind (.bind popIfFull_preserves fun _ => .bind endSlot_preserves fun _ =>
      .bind (construct_preserves _ _) fun _ => .bind incrementCount_preserves fun _ => .pure _) fun _ => .pure _

theorem get_preserves (i : ℕ) : (get i : Op T ℕ).Preserves max := .bind (.read _) fun _ => modMax_preserves _

theorem clearLoop_preserves (n i : ℕ) : (clearLoop n i : Op T Unit).Preserves max := by
  induction n generalizing i with
  | zero => exact .pure _
  | succ n ih =>
    refine .bind (.read _) fun rb => ?_
    split
    · exact .bind (modMax_preserves _) fun _ => .bind (destroy_preserves _) fun _ =>
        .bind decrementCount_preserves fun _ => ih _
    · exact .pure _

theorem clear_preserves : (clear : Op T Unit).Preserves max := .bind (.read _) fun _ => clearLoop_preserves _ _

theorem member_preserves (m : Member T) : (member m).Preserves max := by
  cases m with
  | insert op arg => exact .bind (insert_preserves op arg) fun _ => .pure _
  | pop => exact pop_preserves
  | popBack => exact popBack_preserves
  | get i => exact .bind (get_preserves i) fun _ => .pure _
  | getAt i =>
    refine .bind (.bind (.read _) fun rb => ?_) fun _ => .pure _
    split
    · exact .throw _
    · exact get_preserves i
  | front => exact .bind (get_preserves 0) fun _ => .pure _
  | back => exact .bind (.bind (.read _) fun _ => get_preserves _) fun _ => .pure _
  | size => exact .bind (.read _) fun _ => .pure _
  | empty => exact .bind (.read _) fun _ => .pure _
  | clear => exact clear_preserves

theorem clear_neverThrows : (clear : Op T Unit).NeverThrows := by
  have slots : ∀ n, (modMax n : Op T ℕ).NeverThrows := fun n =>
    .bind (.read _) fun _ => .bind (.require _ _) fun _ => .pure _
  have destroyed : ∀ i, (destroy i : Op T Unit).NeverThrows := fun i =>
    .bind (.read _) fun _ => .bind (.require _ _) fun _ => .bind (.require _ _) fun _ => .update _
  have loop : ∀ n i, (clearLoop n i : Op T Unit).NeverThrows := by
    intro n
    induction n with
    | zero => exact fun _ => .pure _
    | succ n ih =>
      intro i
      refine .bind (.read _) fun rb => ?_
      split
      · exact .bind (slots _) fun _ => .bind (destroyed _) fun _ => .bind (.update _) fun _ => ih _
      · exact .pure _
  exact .bind (.read _) fun _ => loop _ _

/-! ### Steps -/

variable [DecidableEq O] {s s' : State O T}

/-- After `clear` and `deallocate`; the object still points to its block. -/
def State.dismantled (s : State O T) (this : O) (b : Object T) : State O T :=
  { s.put this (some b) with
    log := s.log ++ b.block.toList.map .released
    dropped := s.dropped ++ b.block.toList.map fun _ => b.rb }

/-- What an operation does that returns or throws. -/
inductive Stepped (s : State O T) : Act O T → State O T → Prop where
  | construct {this : O} {max address : ℕ} (free : s.objects this = none) :
      Stepped s (.construct this max address)
        { s.put this (some { data := some address, rb := { max := max } }) with
          log := s.log ++ [.acquired ⟨address, max⟩] }
  | call {this : O} {m : Member T} {b : Object T} {rb : RingBuffer T} (here : s.objects this = some b)
      (ran : member m b.rb = .ok () rb ∨ ∃ e, member m b.rb = .threw e rb) :
      Stepped s (.call this m) (s.put this (some { b with rb := rb }))
  | moveConstruct {this rhs : O} {source : Object T} (free : s.objects this = none)
      (there : s.objects rhs = some source) :
      Stepped s (.moveConstruct this rhs) ((s.put this (some source)).put rhs (some .vacant))
  | moveAssign {this rhs : O} {b source : Object T} {rb : RingBuffer T} (here : s.objects this = some b)
      (ran : clear b.rb = .ok () rb)
      (there : (s.dismantled this { b with rb := rb }).objects rhs = some source) :
      Stepped s (.moveAssign this rhs)
        (((s.dismantled this { b with rb := rb }).put this (some source)).put rhs (some .vacant))
  | destroy {this : O} {b : Object T} {rb : RingBuffer T} (here : s.objects this = some b)
      (ran : clear b.rb = .ok () rb) :
      Stepped s (.destroy this) ((s.dismantled this { b with rb := rb }).put this none)

theorem take_eq {this rhs : O} (taken : s.take this rhs = some s') : ∃ source,
    s.objects rhs = some source ∧ s' = (s.put this (some source)).put rhs (some .vacant) := by
  obtain ⟨source, there, taken⟩ := Option.bind_eq_some_iff.mp taken
  obtain ⟨_, -, taken⟩ := Option.bind_eq_some_iff.mp taken
  exact ⟨source, there, (Option.some.inj taken).symm⟩

theorem deallocate_put {this : O} {b : Object T} :
    (s.put this (some b)).deallocate this = some (s.dismantled this b) := by
  simp [State.deallocate, State.put, State.dismantled]

theorem runs_cases (s : State O T) (this : O) (b : Object T) (p : Op T Unit) :
    (∃ rb, p b.rb = .ok () rb ∧ s.runs this b p = .ok () (s.put this (some { b with rb := rb }))) ∨
    (∃ e rb, p b.rb = .threw e rb ∧ s.runs this b p = .threw e (s.put this (some { b with rb := rb }))) ∨
    ∃ x, p b.rb = .undefined x ∧ s.runs this b p = .undefined x := by
  unfold State.runs Program.focus
  cases run : p b.rb with
  | ok value rb => exact .inl ⟨rb, rfl, rfl⟩
  | threw e rb => exact .inr (.inl ⟨e, rb, rfl, rfl⟩)
  | undefined x => exact .inr (.inr ⟨x, rfl, rfl⟩)

theorem clear_next {this : O} {b : Object T} {f : State O T → Option (State O T)}
    {o : Outcome (State O T) Error Fault Unit} (ran : (s.runs this b clear).next f = some o) :
    (∃ rb s', clear b.rb = .ok () rb ∧ f (s.put this (some { b with rb := rb })) = some s' ∧ o = .ok () s') ∨
    ∃ x, clear b.rb = .undefined x ∧ o = .undefined x := by
  rcases runs_cases s this b clear with ⟨rb, run, eq⟩ | ⟨e, rb, run, -⟩ | ⟨x, run, eq⟩
  · rw [eq] at ran
    obtain ⟨s', after, rfl⟩ := Option.map_eq_some_iff.mp ran
    exact .inl ⟨rb, s', run, after, rfl⟩
  · exact absurd run (clear_neverThrows _ _ _)
  · rw [eq] at ran
    exact .inr ⟨x, run, (Option.some.inj ran).symm⟩

theorem attempt_stepped {a : Act O T} {o : Outcome (State O T) Error Fault Unit} (tried : s.attempt a = some o) :
    (∃ s', (o = .ok () s' ∨ ∃ e, o = .threw e s') ∧ Stepped s a s') ∨ ∃ x, o = .undefined x := by
  cases a with
  | construct this max address =>
    obtain ⟨s', made, rfl⟩ := Option.map_eq_some_iff.mp tried
    simp only [State.construct, Option.ite_none_right_eq_some, Option.some.injEq] at made
    obtain ⟨free, rfl⟩ := made
    exact .inl ⟨_, .inl rfl, .construct (Option.isNone_iff_eq_none.mp free)⟩
  | call this m =>
    obtain ⟨b, here, rfl⟩ := Option.map_eq_some_iff.mp tried
    rcases runs_cases s this b (member m) with ⟨rb, run, eq⟩ | ⟨e, rb, run, eq⟩ | ⟨x, -, eq⟩
    · exact .inl ⟨_, .inl eq, .call here (.inl run)⟩
    · exact .inl ⟨_, .inr ⟨e, eq⟩, .call here (.inr ⟨e, run⟩)⟩
    · exact .inr ⟨x, eq⟩
  | moveConstruct this rhs =>
    obtain ⟨s', made, rfl⟩ := Option.map_eq_some_iff.mp tried
    simp only [State.moveConstruct, Option.ite_none_right_eq_some] at made
    obtain ⟨free, taken⟩ := made
    obtain ⟨source, there, rfl⟩ := take_eq taken
    exact .inl ⟨_, .inl rfl, .moveConstruct (Option.isNone_iff_eq_none.mp free) there⟩
  | moveAssign this rhs =>
    obtain ⟨b, here, tried⟩ := Option.bind_eq_some_iff.mp tried
    rcases clear_next tried with ⟨rb, s', run, after, rfl⟩ | ⟨x, -, rfl⟩
    · obtain ⟨mid, freed, taken⟩ := Option.bind_eq_some_iff.mp after
      obtain rfl := Option.some.inj (deallocate_put.symm.trans freed)
      obtain ⟨source, there, rfl⟩ := take_eq taken
      exact .inl ⟨_, .inl rfl, .moveAssign here run there⟩
    · exact .inr ⟨x, rfl⟩
  | destroy this =>
    obtain ⟨b, here, tried⟩ := Option.bind_eq_some_iff.mp tried
    rcases clear_next tried with ⟨rb, s', run, after, rfl⟩ | ⟨x, -, rfl⟩
    · obtain ⟨mid, freed, taken⟩ := Option.bind_eq_some_iff.mp after
      obtain rfl := Option.some.inj (deallocate_put.symm.trans freed)
      obtain rfl := Option.some.inj taken
      exact .inl ⟨_, .inl rfl, .destroy here run⟩
    · exact .inr ⟨x, rfl⟩

theorem step_stepped {a : Act O T} (taken : (population O T).step s a = some s') : Stepped s a s' := by
  simp only [population] at taken
  split at taken
  · rename_i tried
    obtain rfl := Option.some.inj taken
    rcases attempt_stepped tried with ⟨s'', eq | ⟨e, eq⟩, stepped⟩ | ⟨x, eq⟩
    · cases eq
      exact stepped
    · cases eq
    · cases eq
  · rename_i tried
    obtain rfl := Option.some.inj taken
    rcases attempt_stepped tried with ⟨s'', eq | ⟨e, eq⟩, stepped⟩ | ⟨x, eq⟩
    · cases eq
    · cases eq
      exact stepped
    · cases eq
  · contradiction

end Celestite.RingBuffer
