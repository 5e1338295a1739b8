import Celestite.Channel.Wakeups

/-!
# A pipeline of channels

Threads joined by bounded channels with one producer and one consumer each, as the channel test
runs them: a source emplaces the items of a list and closes, each stage pops until `pop` returns
false, emplaces the image of each item further on and closes, and the sink pops until `pop`
returns false. Thread `i` is the producer of channel `i` and thread `i + 1` its consumer.
-/

namespace Celestite
open Concurrency Monitor

variable {T : ℕ → Type*}

/-- Channels `0` to `last` with their `max_`, the stages' functions, the items of the source and
the values the variables passed to `pop` have at first. -/
structure Pipeline (T : ℕ → Type*) where
  last : ℕ
  max : ℕ → ℕ
  max_pos : ∀ i, 1 ≤ max i
  f : ∀ i, T i → T (i + 1)
  items : List (T 0)
  var : ∀ i, T i

namespace Pipeline

/-- What a thread is at: popping, about to close its channel, or done. -/
inductive Pc where
  | popping
  | closing
  | done
  deriving DecidableEq

inductive Call where
  | pop (i : ℕ)
  | emplace (i : ℕ)
  | close (i : ℕ)
  deriving DecidableEq

/-- The channels and each thread's variables: `outbox i` is what thread `i` is to emplace into
channel `i`, `var i` the variable thread `i + 1` pops into and `taken i` the values it popped. -/
structure Flow (T : ℕ → Type*) where
  chan : ∀ i, Channel (T i)
  outbox : ∀ i, List (T i)
  pc : ℕ → Pc
  var : ∀ i, T i
  taken : ∀ i, List (T i)

/-- Every channel is bounded, with a single producer and a single consumer. -/
def cfg (p : Pipeline T) (i : ℕ) : ChannelConfig := ⟨true, true, true, p.max i⟩

def lift (i : ℕ) (e : Exit (Channel (T i)) Channel.Cond (Channel.Reply (T i))) (x : Flow T) :
    Exit (Flow T) (ℕ × Channel.Cond) Unit where
  shared := { x with chan := Function.update x.chan i e.shared }
  reply := ()
  broadcast := e.broadcast.map (Prod.mk i)
  owed := e.owed.map (Notify.map (Prod.mk i))

def popped (p : Pipeline T) (i : ℕ) (x : Flow T) : Channel.Reply (T i) → Flow T
  | .popTo true value =>
      { x with
        var := Function.update x.var i value
        taken := Function.update x.taken i (x.taken i ++ [value])
        outbox := if i < p.last then Function.update x.outbox (i + 1) [p.f i value] else x.outbox }
  | .popTo false value =>
      { x with
        var := Function.update x.var i value
        pc := Function.update x.pc (i + 1) (if i < p.last then .closing else .done) }
  | _ => x

def pop (p : Pipeline T) (i : ℕ) : Section (Flow T) (ℕ × Channel.Cond) Unit where
  waits := some (i, .condPop)
  guard x := (Channel.popTo (p.cfg i) (x.var i)).guard (x.chan i)
  body x :=
    let e := (Channel.popTo (p.cfg i) (x.var i)).body (x.chan i)
    lift i e (p.popped i x e.reply)

def emplace (p : Pipeline T) (i : ℕ) : Section (Flow T) (ℕ × Channel.Cond) Unit where
  waits := some (i, .condEmplace)
  guard x :=
    match x.outbox i with
    | value :: _ => (Channel.emplace (p.cfg i) value).guard (x.chan i)
    | [] => true
  body x :=
    match x.outbox i with
    | value :: rest =>
        lift i ((Channel.emplace (p.cfg i) value).body (x.chan i))
          { x with outbox := Function.update x.outbox i rest }
    | [] => { shared := x, reply := () }

def close (p : Pipeline T) (i : ℕ) : Section (Flow T) (ℕ × Channel.Cond) Unit where
  body x :=
    lift i ((Channel.close (p.cfg i)).body (x.chan i))
      { x with pc := Function.update x.pc i .done }

def sec (p : Pipeline T) : Call → Section (Flow T) (ℕ × Channel.Cond) Unit
  | .pop i => p.pop i
  | .emplace i => p.emplace i
  | .close i => p.close i

def next (p : Pipeline T) (x : Flow T) (t : ℕ) : Call → Bool
  | .pop i => t == i + 1 && (x.outbox t).isEmpty && x.pc t == .popping
  | .emplace i => t == i && decide (i ≤ p.last) && !(x.outbox i).isEmpty
  | .close i => t == i && (x.outbox i).isEmpty && x.pc i == .closing

def monitor (p : Pipeline T) : Monitor (Fin (p.last + 2)) (Flow T) (ℕ × Channel.Cond) Call Unit where
  init :=
    { chan := fun _ => {}
      outbox := fun i => match i with | 0 => p.items | _ + 1 => []
      pc := fun i => if i = 0 then .closing else .popping
      var := p.var
      taken := fun _ => [] }
  sec := p.sec
  mayStart s t := p.next s.shared t

def composed (p : Pipeline T) : ∀ i, T 0 → T i
  | 0 => id
  | i + 1 => p.f i ∘ p.composed i

def result (p : Pipeline T) (x : Flow T) : List (T p.last) := x.taken p.last

end Pipeline
end Celestite
