import Celestite.Channel.Wakeups

/-!
# Exceptions out of user code

A producer that was woken may fail to construct its element, and a consumer that was woken may
fail to move its item out. The call is left with the notification consumed and the slot or the
item still there, so another sleeper may wait for ever. It does not when the thread that throws
was not needed.
-/

namespace Celestite.Channel
open Concurrency Monitor

variable {T ι : Type*} [DecidableEq ι] [Fintype ι] {cfg : ChannelConfig} {producer consumer : ι}

/-- What a thread asleep on each condition variable is waiting for. -/
def units (cfg : ChannelConfig) : Cond → Channel T → ℕ
  | .condPop, ch => ch.items.length
  | .condEmplace, ch => room cfg ch

/-- Should `t` throw after it was woken from `c`, then a `notify_all` is outstanding, or a
`notify_one` for each sleeper, or the units are few enough for the notifications and for the
other woken threads. -/
def Spares (cfg : ChannelConfig) (producer consumer : ι)
    (s : State ι (Channel T) Cond (Call T) (Reply T)) (t : ι) (c : Cond) : Prop :=
  (monitor cfg producer consumer).wokenFrom c (s.phase t) = true →
    (monitor cfg producer consumer).Spared c (units cfg c) Halted s t

def harmless (cfg : ChannelConfig) (producer consumer : ι)
    (s : State ι (Channel T) Cond (Call T) (Reply T)) : Act ι (Call T) → Prop
  | .throws t => Spares cfg producer consumer s t .condPop ∧ Spares cfg producer consumer s t .condEmplace
  | _ => True

instance (s : State ι (Channel T) Cond (Call T) (Reply T)) (t : ι) (c : Cond) :
    Decidable (Spares cfg producer consumer s t c) := inferInstanceAs (Decidable (_ → _))

instance (s : State ι (Channel T) Cond (Call T) (Reply T)) (a : Act ι (Call T)) :
    Decidable (harmless cfg producer consumer s a) :=
  match a with
  | .throws _ => inferInstanceAs (Decidable (_ ∧ _))
  | .start .. | .enter _ | .notify .. | .spurious _ => isTrue trivial

variable {s : State ι (Channel T) Cond (Call T) (Reply T)}

/-- With several producers and consumers nobody sleeps through an item or a free slot along the
runs in which every exception is harmless. -/
theorem served_of_harmless (producers : cfg.sp = false) (consumers : cfg.sc = false)
    (reached : (monitor cfg producer consumer).lts.Reaches (harmless cfg producer consumer) s)
    (quiet : s.Quiet) (t : ι) :
    ((monitor cfg producer consumer).sleepsOn .condPop (s.phase t) = true → s.shared.items = []) ∧
    ((monitor cfg producer consumer).sleepsOn .condEmplace (s.phase t) = true →
      cfg.max ≤ s.shared.items.length) := by
  constructor
  · intro asleep
    have covered := (condPop_counted consumers).covered reached fun s t allowed => allowed.1
    exact List.length_eq_zero_iff.mp (covered_quiet covered quiet asleep).1
  · intro asleep
    obtain ⟨k, _, waits⟩ := sleepsOn_iff.mp asleep
    have covered := (condEmplace_counted (waits_condEmplace waits).1 producers).covered reached
      fun s t allowed => allowed.2
    have full := (covered_quiet covered quiet asleep).1
    simp only [room] at full
    omega

/-- A producer that throws on a free slot strands nobody when nobody else sleeps. -/
theorem served_of_harmless_retry :
    ∃ s, (monitor (T := ℕ) ⟨true, false, false, 1⟩ (0 : Fin 3) 0).lts.Reaches
        (harmless ⟨true, false, false, 1⟩ 0 0) s ∧
      s.phase 2 = .asleep (.emplace 5) ∧ 1 ≤ s.shared.items.length := by
  have reached : (monitor (T := ℕ) ⟨true, false, false, 1⟩ (0 : Fin 3) 0).lts.Reaches
      (harmless ⟨true, false, false, 1⟩ 0 0) _ :=
    Lts.run_reaches [.start 0 (.emplace 1), .enter 0, .notify 0 none, .start 1 (.emplace 2),
      .enter 1, .start 0 .pop, .enter 0, .notify 0 (some 1), .throws 1, .start 1 (.emplace 4),
      .enter 1, .notify 1 none, .start 2 (.emplace 5), .enter 2] .init rfl
  exact ⟨_, reached, rfl, (served_of_harmless rfl rfl reached (by decide) 2).2 rfl⟩

/-- Two producers sleep on a full channel, the one that is notified throws: a slot is free, the
other one sleeps and nobody will wake it. -/
theorem stranded_by_throw :
    ¬ ∀ s, (monitor (T := ℕ) ⟨true, false, false, 1⟩ (0 : Fin 3) 0).lts.Reachable s → s.Quiet → ∀ t,
      ((monitor (T := ℕ) ⟨true, false, false, 1⟩ (0 : Fin 3) 0).sleepsOn .condPop (s.phase t) = true →
        s.shared.items = []) ∧
      ((monitor (T := ℕ) ⟨true, false, false, 1⟩ (0 : Fin 3) 0).sleepsOn .condEmplace (s.phase t) = true →
        1 ≤ s.shared.items.length) := by
  intro served
  have reached : (monitor (T := ℕ) ⟨true, false, false, 1⟩ (0 : Fin 3) 0).lts.Reachable _ :=
    Lts.run_reaches [.start 0 (.emplace 1), .enter 0, .notify 0 none, .start 1 (.emplace 2),
      .enter 1, .start 2 (.emplace 3), .enter 2, .start 0 .pop, .enter 0, .notify 0 (some 1),
      .throws 1] .init rfl
  exact absurd ((served _ reached (by decide) 2).2 rfl) (by decide)

end Celestite.Channel
