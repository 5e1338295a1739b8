import Celestite.RingBuffer.Objects

/-!
# Each block is freed once

The block of a buffer passes with its pointer and its size to whoever it is moved to, and is freed
when that buffer is destroyed or assigned to. What becomes of the elements does not matter for this.
-/

namespace Celestite.RingBuffer
open Concurrency Celestite.Sequential

variable {O T : Type} [DecidableEq O] {s s' : State O T} {this rhs : O} {b source : Object T}
  {left rb : RingBuffer T}

/-- What happens to the storage. An operation on the elements, `clear` included, may leave them in any
way, as it may where it destroys what is no element. -/
inductive Handling (O T : Type) where
  | construct (this : O) (max address : ℕ)
  | elements (this : O) (left : RingBuffer T)
  | moveConstruct (this rhs : O)
  | moveAssign (this rhs : O) (left : RingBuffer T)
  | destroy (this : O) (left : RingBuffer T)

namespace State
variable (s : State O T) (this rhs : O) (left : RingBuffer T)

def leave : Option (State O T) := do
  let b ← s.objects this
  return s.put this (some { b with rb := { left with max := b.rb.max } })

def handle : Handling O T → Option (State O T)
  | .construct this max address => s.construct this max address
  | .elements this left => s.leave this left
  | .moveConstruct this rhs => s.moveConstruct this rhs
  | .moveAssign this rhs left => do
    let s ← s.leave this left
    let s ← s.deallocate this
    s.take this rhs
  | .destroy this left => do
    let s ← s.leave this left
    let s ← s.deallocate this
    return s.put this none

end State

def storage (O T : Type) [DecidableEq O] : Lts (State O T) (Handling O T) where
  init := {}
  step := State.handle

def Granted (s : State O T) : Handling O T → Prop
  | .construct this max address => Lawful s (.construct this max address)
  | _ => True

/-! ### The operations of a population -/

theorem leave_of_max (here : s.objects this = some b) (max : rb.max = b.rb.max) :
    s.leave this rb = some (s.put this (some { b with rb := rb })) := by
  simp [State.leave, here, ← max]

theorem put_keeps (there : s.objects rhs = some source) : ∃ b', (s.put this (some b)).objects rhs = some b' := by
  by_cases same : rhs = this
  · exact ⟨b, by simp [State.put, same]⟩
  · exact ⟨source, by simp [State.put, same, there]⟩

theorem Stepped.handled {a : Act O T} (stepped : Stepped s a s') (lawful : Lawful s a) :
    ∃ h, Granted s h ∧ s.handle h = some s' := by
  cases stepped with
  | @construct this max address free =>
    exact ⟨.construct this max address, lawful, by simp [State.handle, State.construct, free]⟩
  | @call this m b rb here ran =>
    have max : rb.max = b.rb.max := by
      rcases ran with ran | ⟨e, ran⟩
      · exact (member_preserves _).of_ok ran
      · exact (member_preserves _).of_threw ran
    exact ⟨.elements this rb, trivial, leave_of_max here max⟩
  | @moveConstruct this rhs source free there =>
    refine ⟨.moveConstruct this rhs, trivial, ?_⟩
    obtain ⟨source', there'⟩ := @put_keeps O T _ s this rhs source source there
    simp [State.handle, State.moveConstruct, State.take, free, there, there']
  | @moveAssign this rhs b source rb here ran there =>
    refine ⟨.moveAssign this rhs rb, trivial, ?_⟩
    obtain ⟨source', there'⟩ := @put_keeps O T _ (s.dismantled this { b with rb := rb }) this rhs source source there
    simp [State.handle, leave_of_max here (clear_preserves.of_ok ran), deallocate_put, State.take, there, there']
  | @destroy this b rb here ran =>
    refine ⟨.destroy this rb, trivial, ?_⟩
    simp [State.handle, leave_of_max here (clear_preserves.of_ok ran), deallocate_put]

theorem storage_of_population (reached : (population O T).Reaches Lawful s) : (storage O T).Reaches Granted s := by
  refine reached.invariant (I := (storage O T).Reaches Granted) .init fun _ before lawful taken => ?_
  obtain ⟨h, granted, handled⟩ := (step_stepped taken).handled lawful
  exact .step before granted handled

/-! ### Blocks and their holders -/

theorem leave_eq (ran : s.leave this left = some s') : ∃ b rb, s.objects this = some b ∧
    rb.max = b.rb.max ∧ s' = s.put this (some { b with rb := rb }) := by
  obtain ⟨b, here, ran⟩ := Option.bind_eq_some_iff.mp ran
  exact ⟨b, { left with max := b.rb.max }, here, rfl, (Option.some.inj ran).symm⟩

theorem block_kept (here : s.objects this = some b) (max : rb.max = b.rb.max) :
    holding Object.block (s.put this (some { b with rb := rb })).objects = holding Object.block s.objects := by
  apply holding_update_same Object.block s.objects this _
  simp [here, Object.block, max]

variable [Fintype O]

/-- Each block is held by one buffer or has been freed, and none was freed twice. -/
def Stored (s : State O T) : Prop := Sole Block.address (holding Object.block s.objects) s.log

theorem Stored.dismantled (stored : Stored s) (here : s.objects this = some b) (max : rb.max = b.rb.max) :
    let s' := s.dismantled this { b with rb := rb }
    Sole Block.address (Function.update (holding Object.block s'.objects) this none) s'.log := by
  have kept := block_kept here max
  have held : holding Object.block s.objects this = ({ b with rb := rb } : Object T).block := by
    simp [holding, here, Object.block, max]
  have dropped := stored.drop this
  rw [held, ← kept] at dropped
  exact dropped

theorem stored_take (sole : Sole Block.address (Function.update (holding Object.block s.objects) this none) s.log)
    (taken : s.take this rhs = some s') : Stored s' := by
  obtain ⟨source, there, rfl⟩ := take_eq taken
  exact sole.take_object (holding_some there).symm rfl

theorem Stored.handle {h : Handling O T} (stored : Stored s) (granted : Granted s h) (handled : s.handle h = some s') :
    Stored s' := by
  cases h with
  | construct this max address =>
    simp only [State.handle, State.construct, Option.ite_none_right_eq_some, Option.some.injEq] at handled
    obtain ⟨free, rfl⟩ := handled
    have empty : holding Object.block s.objects this = none := holding_none (Option.isNone_iff_eq_none.mp free)
    -- two live blocks are told apart by their addresses alone
    have fresh : ∀ k ∈ some (Block.mk address max), ∀ k', Live s.log k' → k'.address ≠ k.address := by
      rintro _ ⟨⟩ k' live
      exact granted.2 k' live
    have filled := stored.fill empty (some ⟨address, max⟩) fresh
    unfold Stored State.put
    rw [holding_update]
    exact filled
  | elements this left =>
    obtain ⟨b, rb, here, max, rfl⟩ := leave_eq handled
    unfold Stored
    rw [block_kept here max]
    exact stored
  | moveConstruct this rhs =>
    simp only [State.handle, State.moveConstruct, Option.ite_none_right_eq_some] at handled
    obtain ⟨free, taken⟩ := handled
    have empty : Function.update (holding Object.block s.objects) this none = holding Object.block s.objects :=
      holding_absent (Option.isNone_iff_eq_none.mp free)
    exact stored_take (empty.symm ▸ stored) taken
  | moveAssign this rhs left =>
    obtain ⟨mid, ran, handled⟩ := Option.bind_eq_some_iff.mp handled
    obtain ⟨b, rb, here, max, rfl⟩ := leave_eq ran
    obtain ⟨mid, freed, taken⟩ := Option.bind_eq_some_iff.mp handled
    obtain rfl := Option.some.inj (deallocate_put.symm.trans freed)
    exact stored_take (stored.dismantled here max) taken
  | destroy this left =>
    obtain ⟨mid, ran, handled⟩ := Option.bind_eq_some_iff.mp handled
    obtain ⟨b, rb, here, max, rfl⟩ := leave_eq ran
    obtain ⟨mid, freed, gone⟩ := Option.bind_eq_some_iff.mp handled
    obtain rfl := Option.some.inj (deallocate_put.symm.trans freed)
    obtain rfl := Option.some.inj gone
    unfold Stored State.put
    rw [holding_update]
    exact stored.dismantled here max

theorem stored_of_granted (reached : (storage O T).Reaches Granted s) : Stored s :=
  reached.invariant .init fun _ stored granted handled => stored.handle granted handled

omit [Fintype O] in
theorem moved_of_take (apart : this ≠ rhs) (taken : s.take this rhs = some s') :
    ∃ b, s.objects rhs = some b ∧ s'.objects this = some b ∧ s'.objects rhs = some .vacant := by
  obtain ⟨source, there, rfl⟩ := take_eq taken
  refine ⟨source, there, ?_, Function.update_self rhs _ _⟩
  exact (Function.update_of_ne apart _ _).trans (Function.update_self this _ _)

omit [Fintype O] in
theorem moved_of_handle (apart : this ≠ rhs) (handled : s.handle (.moveConstruct this rhs) = some s' ∨
      s.handle (.moveAssign this rhs left) = some s') :
    ∃ b, s.objects rhs = some b ∧ s'.objects this = some b ∧ s'.objects rhs = some .vacant := by
  rcases handled with handled | handled
  · simp only [State.handle, State.moveConstruct, Option.ite_none_right_eq_some] at handled
    exact moved_of_take apart handled.2
  · obtain ⟨mid, ran, handled⟩ := Option.bind_eq_some_iff.mp handled
    obtain ⟨b, rb, here, max, rfl⟩ := leave_eq ran
    obtain ⟨mid, freed, taken⟩ := Option.bind_eq_some_iff.mp handled
    obtain rfl := Option.some.inj (deallocate_put.symm.trans freed)
    obtain ⟨source, there, moved⟩ := moved_of_take apart taken
    exact ⟨source, (Function.update_of_ne apart.symm _ _).symm.trans there, moved⟩

/-- The runs of a population are among those in which, whatever becomes of the elements, no two buffers hold
one block; the blocks that are live are those held; each is freed once and with the size it was allocated
with; a move hands the block and the elements on; and once no buffer is left every block has been freed. -/
theorem freed_once :
    (∀ s : State O T, (population O T).Reaches Lawful s → (storage O T).Reaches Granted s) ∧
    ∀ s : State O T, (storage O T).Reaches Granted s →
      (∀ o o' b b' address, s.objects o = some b → s.objects o' = some b' → b.data = some address →
        b'.data = some address → o = o') ∧
      (∀ k, Live s.log k ↔ ∃ o b, s.objects o = some b ∧ b.block = some k) ∧
      (∀ p, p <+: s.log → ∀ k, releases p k ≤ acquisitions p k ∧ acquisitions p k ≤ releases p k + 1) ∧
      (∀ this rhs left s', this ≠ rhs → s.handle (.moveConstruct this rhs) = some s' ∨
        s.handle (.moveAssign this rhs left) = some s' →
        ∃ b, s.objects rhs = some b ∧ s'.objects this = some b ∧ s'.objects rhs = some .vacant) ∧
      ((∀ o, s.objects o = none) → ∀ k, acquisitions s.log k = releases s.log k) := by
  refine ⟨fun s reached => storage_of_population reached, fun s reached => ?_⟩
  have stored := stored_of_granted reached
  refine ⟨?_, ?_, ?_, ?_, ?_⟩
  · intro o o' b b' address here there first second
    have held : ∀ {o b}, s.objects o = some b → b.data = some address →
        holding Object.block s.objects o = some ⟨address, b.rb.max⟩ := by
      intro o b here points
      rw [holding_some here, Object.block, points, Option.map_some]
    exact stored.unique (held here first) (held there second) rfl
  · exact fun k => stored.live_iff_object
  · intro p short k
    exact ⟨stored.covered p short k, stored.single p short k⟩
  · intro this rhs left s' apart handled
    exact moved_of_handle apart handled
  · exact stored.released_of_absent

/-- A buffer is moved into another one, which is moved onto itself, and both are destroyed. -/
theorem freed_once_moved : ∃ s : State (Fin 2) ℕ, (population (Fin 2) ℕ).Reaches Lawful s ∧
    s.log = [.acquired ⟨64, 2⟩, .released ⟨64, 2⟩] ∧ acquisitions s.log ⟨64, 2⟩ = releases s.log ⟨64, 2⟩ := by
  obtain ⟨s, ran, log, gone⟩ : ∃ s, (population (Fin 2) ℕ).run Lawful (population (Fin 2) ℕ).init
      [.construct 0 2 64, .call 0 (.insert .push (plain 5)), .moveConstruct 1 0, .moveAssign 1 1,
       .destroy 0, .destroy 1] = some s ∧ s.log = [.acquired ⟨64, 2⟩, .released ⟨64, 2⟩] ∧
        ∀ o, s.objects o = none := ⟨_, rfl, rfl, by decide⟩
  have reached := Lts.run_reaches _ .init ran
  obtain ⟨sub, once⟩ := freed_once (O := Fin 2) (T := ℕ)
  obtain ⟨-, -, -, -, freed⟩ := once s (sub s reached)
  exact ⟨s, reached, log, freed gone ⟨64, 2⟩⟩

end Celestite.RingBuffer
