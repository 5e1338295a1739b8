import Celestite.Concurrency.Monitor

/-!
# The channel

`clst::Channel`: a `std::deque` under a mutex with a condition variable for consumers and, when
bounded, one for producers. Each method is one critical section followed by the notifications
it issues after unlocking.
-/

namespace Celestite
open Concurrency

/-- The template parameters `Bounded`, `Sp`, `Sc` and the constant `max_` of `ChannelSize`. -/
structure ChannelConfig where
  bounded : Bool
  sp : Bool
  sc : Bool
  max : ℕ
  deriving DecidableEq

/-- The deque the class inherits from, and `closed_`. -/
structure Channel (T : Type*) where
  items : List T := []
  closed : Bool := false
  deriving DecidableEq

namespace Channel
variable {T ι : Type*}

inductive Cond where
  | condPop
  | condEmplace
  deriving DecidableEq

inductive Call (T : Type*) where
  | emplace (value : T)
  | close
  /-- `pop(dst)`, with the value the variable `dst` has before the call. -/
  | popTo (dst : T)
  | pop
  | clear
  | empty
  | size

/-- What a call returns. `popTo` also gives the value of `dst` afterwards, and `cleared` the
items dropped, which the code does not return. -/
inductive Reply (T : Type*) where
  | emplace (accepted : Bool)
  | close
  | popTo (taken : Bool) (dst : T)
  | pop (ret : Option T)
  | cleared (dropped : List T)
  | empty (isEmpty : Bool)
  | size (count : ℕ)
  | threw
  deriving DecidableEq

/-- The lock and the wait of `emplace` are the same in both branches. An unbounded channel takes
a `lock_guard` and does not wait. -/
def emplace (cfg : ChannelConfig) (value : T) : Section (Channel T) Cond (Reply T) where
  waits := if cfg.bounded then some .condEmplace else none
  guard ch := !cfg.bounded || (decide (ch.items.length < cfg.max) || ch.closed)
  body ch :=
    if cfg.sc then
      if ch.closed then { shared := ch, reply := .emplace false }
      else
        let shouldNotify := ch.items.isEmpty
        { shared := { ch with items := ch.items ++ [value] }
          reply := .emplace true
          owed := if shouldNotify then [.one .condPop] else [] }
    else
      if ch.closed then { shared := ch, reply := .emplace false }
      else
        { shared := { ch with items := ch.items ++ [value] }
          reply := .emplace true
          owed := [.one .condPop] }
  -- Constructing the element may throw; `emplace_back` then leaves the deque as it was.
  fails ch := if ch.closed then none else some .threw

def close (cfg : ChannelConfig) : Section (Channel T) Cond (Reply T) where
  body ch :=
    { shared := { ch with closed := true }
      reply := .close
      owed := .all .condPop :: if cfg.bounded then [.all .condEmplace] else [] }

/-- Both overloads of `pop`, by what they return for the item taken and for a drained channel. -/
def popWith (cfg : ChannelConfig) (taken : T → Reply T) (drained : Reply T) :
    Section (Channel T) Cond (Reply T) where
  waits := some .condPop
  guard ch := ch.closed || !ch.items.isEmpty
  body ch :=
    match ch.items with
    | [] => { shared := ch, reply := drained }
    | value :: rest =>
      if !cfg.bounded || !cfg.sp then
        { shared := { ch with items := rest }
          reply := taken value
          owed := if cfg.bounded then [.one .condEmplace] else [] }
      else
        let shouldNotify := ch.items.length == cfg.max
        { shared := { ch with items := rest }
          reply := taken value
          owed := if shouldNotify then [.one .condEmplace] else [] }
  -- Moving out of the front may throw before `pop_front`.
  fails ch := if ch.items.isEmpty then none else some .threw

def popTo (cfg : ChannelConfig) (dst : T) : Section (Channel T) Cond (Reply T) :=
  popWith cfg (.popTo true) (.popTo false dst)

def pop (cfg : ChannelConfig) : Section (Channel T) Cond (Reply T) :=
  popWith cfg (fun value => .pop (some value)) (.pop none)

def clear (cfg : ChannelConfig) : Section (Channel T) Cond (Reply T) where
  body ch :=
    { shared := { ch with items := [] }
      reply := .cleared ch.items
      owed := if cfg.bounded then [.all .condEmplace] else [] }

def empty : Section (Channel T) Cond (Reply T) where
  body ch := { shared := ch, reply := .empty ch.items.isEmpty }

def size : Section (Channel T) Cond (Reply T) where
  body ch := { shared := ch, reply := .size ch.items.length }

def sec (cfg : ChannelConfig) : Call T → Section (Channel T) Cond (Reply T)
  | .emplace value => emplace cfg value
  | .close => close cfg
  | .popTo dst => popTo cfg dst
  | .pop => pop cfg
  | .clear => clear cfg
  | .empty => empty
  | .size => size

/-- Threads that make any calls in any order, but only `producer` emplaces when `Sp` and only
`consumer` pops when `Sc`. -/
def monitor [DecidableEq ι] (cfg : ChannelConfig) (producer consumer : ι) :
    Monitor ι (Channel T) Cond (Call T) (Reply T) where
  init := {}
  sec := sec cfg
  mayStart _ t
    | .emplace _ => !cfg.sp || t == producer
    | .popTo _ | .pop => !cfg.sc || t == consumer
    | _ => true

/-! ### What a section does -/

inductive Pops : Call T → (T → Reply T) → Reply T → Prop where
  | popTo (dst : T) : Pops (.popTo dst) (.popTo true) (.popTo false dst)
  | pop : Pops .pop (fun value => .pop (some value)) (.pop none)

def popNotifies (cfg : ChannelConfig) (ch : Channel T) : Bool :=
  cfg.bounded && (!cfg.sp || ch.items.length == cfg.max)

inductive Effect (cfg : ChannelConfig) (ch : Channel T) :
    Call T → Exit (Channel T) Cond (Reply T) → Prop where
  | rejected {value : T} (closed : ch.closed = true) :
      Effect cfg ch (.emplace value) { shared := ch, reply := .emplace false }
  | pushed {value : T} (running : ch.closed = false)
      (room : cfg.bounded = true → ch.items.length < cfg.max) :
      Effect cfg ch (.emplace value)
        { shared := { ch with items := ch.items ++ [value] }
          reply := .emplace true
          owed := if cfg.sc && !ch.items.isEmpty then [] else [.one .condPop] }
  | close : Effect cfg ch .close
      { shared := { ch with closed := true }
        reply := .close
        owed := .all .condPop :: if cfg.bounded then [.all .condEmplace] else [] }
  | drained {k : Call T} {taken : T → Reply T} {drained : Reply T} (pops : Pops k taken drained)
      (none : ch.items = []) (closed : ch.closed = true) :
      Effect cfg ch k { shared := ch, reply := drained }
  | taken {k : Call T} {taken : T → Reply T} {drained : Reply T} {value : T} {rest : List T}
      (pops : Pops k taken drained) (some : ch.items = value :: rest) :
      Effect cfg ch k
        { shared := { ch with items := rest }
          reply := taken value
          owed := if popNotifies cfg ch then [.one .condEmplace] else [] }
  | clear : Effect cfg ch .clear
      { shared := { ch with items := [] }
        reply := .cleared ch.items
        owed := if cfg.bounded then [.all .condEmplace] else [] }
  | empty : Effect cfg ch .empty { shared := ch, reply := .empty ch.items.isEmpty }
  | size : Effect cfg ch .size { shared := ch, reply := .size ch.items.length }

variable {cfg : ChannelConfig} {ch : Channel T}

theorem emplace_effect {value : T} (ready : (emplace cfg value).guard ch = true) :
    Effect cfg ch (.emplace value) ((emplace cfg value).body ch) := by
  cases closed : ch.closed with
  | true =>
    have same : (emplace cfg value).body ch = { shared := ch, reply := .emplace false } := by
      simp [emplace, closed]
    rw [same]
    exact .rejected closed
  | false =>
    have same : (emplace cfg value).body ch =
        { shared := { ch with items := ch.items ++ [value] }
          reply := .emplace true
          owed := if cfg.sc && !ch.items.isEmpty then [] else [.one .condPop] } := by
      cases single : cfg.sc <;> by_cases none : ch.items = [] <;> simp [emplace, closed, single, none]
    rw [same]
    refine .pushed closed fun bounded => ?_
    simpa [emplace, bounded, closed] using ready

theorem popWith_effect {k : Call T} {taken : T → Reply T} {drained : Reply T}
    (pops : Pops k taken drained) (ready : (popWith cfg taken drained).guard ch = true) :
    Effect cfg ch k ((popWith cfg taken drained).body ch) := by
  cases items : ch.items with
  | nil =>
    have same : (popWith cfg taken drained).body ch = { shared := ch, reply := drained } := by
      simp [popWith, items]
    rw [same]
    exact .drained pops items (by simpa [popWith, items] using ready)
  | cons value rest =>
    have same : (popWith cfg taken drained).body ch =
        { shared := { ch with items := rest }
          reply := taken value
          owed := if popNotifies cfg ch then [.one .condEmplace] else [] } := by
      cases bounded : cfg.bounded <;> cases single : cfg.sp <;>
        simp [popWith, popNotifies, items, bounded, single]
    rw [same]
    exact .taken pops items

theorem sec_effect {k : Call T} (ready : (sec cfg k).guard ch = true) :
    Effect cfg ch k ((sec cfg k).body ch) := by
  cases k with
  | emplace value => exact emplace_effect ready
  | popTo dst => exact popWith_effect (.popTo dst) ready
  | pop => exact popWith_effect .pop ready
  | close => exact .close
  | clear => exact .clear
  | empty => exact .empty
  | size => exact .size

theorem waits_condPop {k : Call T} (h : (sec cfg k).waits = some .condPop) :
    ∃ taken drained, Pops k taken drained ∧ sec cfg k = popWith cfg taken drained := by
  cases k with
  | popTo dst => exact ⟨_, _, .popTo dst, rfl⟩
  | pop => exact ⟨_, _, .pop, rfl⟩
  | emplace value => cases e : cfg.bounded <;> simp [sec, emplace, e] at h
  | _ => simp [sec, close, clear, empty, size] at h

theorem waits_condEmplace {k : Call T} (h : (sec cfg k).waits = some .condEmplace) :
    cfg.bounded = true ∧ ∃ value, k = .emplace value := by
  cases k with
  | emplace value =>
    refine ⟨?_, value, rfl⟩
    cases e : cfg.bounded <;> simp_all [sec, emplace]
  | popTo dst => simp [sec, popTo, popWith] at h
  | pop => simp [sec, pop, popWith] at h
  | _ => simp [sec, close, clear, empty, size] at h

theorem pops_waits {k : Call T} {taken : T → Reply T} {drained : Reply T}
    (pops : Pops k taken drained) : (sec cfg k).waits = some .condPop := by
  cases pops <;> rfl

end Channel
end Celestite
