import Celestite.Channel.Model
import Celestite.Concurrency.Wakeup

/-!
# The channel loses no wakeup

Each condition variable follows one of the rules of `Concurrency.Wakeup`: counted when every
operation notifies once, sole when the only producer or consumer is notified on a full queue
that gets a slot or an empty one that gets an item.
-/

namespace Celestite.Channel
open Concurrency Monitor

variable {T ι : Type*} [DecidableEq ι] {cfg : ChannelConfig} {producer consumer : ι}

abbrev Halted (ch : Channel T) : Prop := ch.closed = true

def room (cfg : ChannelConfig) (ch : Channel T) : ℕ := cfg.max - ch.items.length

theorem condPop_blocked {k : Call T} {ch : Channel T} (waits : (sec cfg k).waits = some .condPop)
    (blocked : (sec cfg k).guard ch = false) : ch.items = [] ∧ ¬ Halted ch := by
  obtain ⟨taken, drained, _, same⟩ := waits_condPop waits
  simpa [same, popWith, and_comm] using blocked

theorem condEmplace_blocked {k : Call T} {ch : Channel T}
    (waits : (sec cfg k).waits = some .condEmplace) (blocked : (sec cfg k).guard ch = false) :
    cfg.max ≤ ch.items.length ∧ ¬ Halted ch := by
  obtain ⟨bounded, value, rfl⟩ := waits_condEmplace waits
  simpa [sec, emplace, bounded] using blocked

theorem monitor_effect {k : Call T} {ch : Channel T}
    (ready : ((monitor cfg producer consumer).sec k).guard ch = true) :
    Effect cfg ch k (((monitor cfg producer consumer).sec k).body ch) :=
  sec_effect ready

/-- Without `Sc` every `emplace` notifies a consumer. -/
theorem condPop_counted (multi : cfg.sc = false) :
    Counted (monitor (T := T) cfg producer consumer) .condPop (fun ch => ch.items.length)
      Halted where
  blocked k ch waits blocked := by
    obtain ⟨none, running⟩ := condPop_blocked waits blocked
    exact ⟨by simp [none], running⟩
  passes k ch ready := by
    have effect := monitor_effect ready
    generalize ((monitor cfg producer consumer).sec k).body ch = e at effect ⊢
    cases effect with
    | rejected closed => exact Or.inr (Or.inr ⟨Iff.rfl, absurd closed⟩)
    | @pushed value running room =>
      have free : (monitor cfg producer consumer).takes .condPop (.emplace value) = 0 :=
        takes_zero fun waits => by obtain ⟨_, _, pops, _⟩ := waits_condPop waits; cases pops
      exact Or.inr (Or.inr ⟨Iff.rfl, fun _ => by simp [multi, free]⟩)
    | close => exact Or.inl (by simp)
    | drained pops none closed => exact Or.inr (Or.inr ⟨Iff.rfl, absurd closed⟩)
    | taken pops some =>
      have takes : (monitor cfg producer consumer).takes .condPop k = 1 :=
        takes_pos (pops_waits pops)
      exact Or.inr (Or.inr ⟨Iff.rfl, fun _ => by simp [takes, some]⟩)
    | clear => exact Or.inr (Or.inr ⟨Iff.rfl, fun _ => by simp [takes, monitor, sec, clear]⟩)
    | empty => exact Or.inr (Or.inr ⟨Iff.rfl, fun _ => by simp [takes, monitor, sec, empty]⟩)
    | size => exact Or.inr (Or.inr ⟨Iff.rfl, fun _ => by simp [takes, monitor, sec, size]⟩)

/-- With `Sc` the consumer is notified when an item goes into an empty channel. -/
theorem condPop_sole (single : cfg.sc = true) :
    Sole (monitor (T := T) cfg producer consumer) .condPop
      (fun ch => ch.items ≠ [] ∨ Halted ch) consumer where
  starts s t k may waits := by
    obtain ⟨_, _, pops, _⟩ := waits_condPop waits
    cases pops <;> simpa [monitor, single] using may
  blocked k ch waits blocked := by
    obtain ⟨none, running⟩ := condPop_blocked waits blocked
    simp [none, running]
  passes k ch ready now := by
    have effect := monitor_effect ready
    generalize ((monitor cfg producer consumer).sec k).body ch = e at effect now ⊢
    cases effect with
    | rejected closed => exact Or.inl (Or.inr closed)
    | pushed running room =>
      by_cases none : ch.items = []
      · exact Or.inr (Or.inl (by simp [none]))
      · exact Or.inl (Or.inl none)
    | close => exact Or.inr (Or.inr (Or.inl (by simp)))
    | drained pops none closed => exact Or.inl (Or.inr closed)
    | taken pops some => exact Or.inl (Or.inl (by simp [some]))
    | clear => exact Or.inl (Or.inr (now.resolve_left (by simp)))
    | empty => exact Or.inl now
    | size => exact Or.inl now

/-- Without `Sp` every `pop` of a bounded channel notifies a producer. -/
theorem condEmplace_counted (bounded : cfg.bounded = true) (multi : cfg.sp = false) :
    Counted (monitor (T := T) cfg producer consumer) .condEmplace (room cfg) Halted where
  blocked k ch waits blocked := by
    obtain ⟨full, running⟩ := condEmplace_blocked waits blocked
    exact ⟨by simp [room]; omega, running⟩
  passes k ch ready := by
    have effect := monitor_effect ready
    generalize ((monitor cfg producer consumer).sec k).body ch = e at effect ⊢
    cases effect with
    | rejected closed => exact Or.inr (Or.inr ⟨Iff.rfl, absurd closed⟩)
    | @pushed value running slot =>
      have takes : (monitor cfg producer consumer).takes .condEmplace (.emplace value) = 1 :=
        takes_pos (by simp [monitor, sec, emplace, bounded])
      have := slot bounded
      refine Or.inr (Or.inr ⟨Iff.rfl, fun _ => ?_⟩)
      simp only [takes, room, List.length_append, List.length_singleton]
      omega
    | close => exact Or.inl (by simp [bounded])
    | drained pops none closed => exact Or.inr (Or.inr ⟨Iff.rfl, absurd closed⟩)
    | taken pops some =>
      have free : (monitor cfg producer consumer).takes .condEmplace k = 0 :=
        takes_zero (by rw [show ((monitor cfg producer consumer).sec k).waits = _ from pops_waits pops]; simp)
      refine Or.inr (Or.inr ⟨Iff.rfl, fun _ => ?_⟩)
      simp only [free, room, some, popNotifies, bounded, multi, Bool.not_false, Bool.true_or,
        Bool.and_true, if_true, List.count_singleton_self, List.length_cons]
      omega
    | clear => exact Or.inl (by simp [bounded])
    | empty => exact Or.inr (Or.inr ⟨Iff.rfl, fun _ => by simp [takes, monitor, sec, empty]⟩)
    | size => exact Or.inr (Or.inr ⟨Iff.rfl, fun _ => by simp [takes, monitor, sec, size]⟩)

/-- With `Sp` the producer is notified when an item comes out of a full channel. -/
theorem condEmplace_sole (bounded : cfg.bounded = true) (single : cfg.sp = true) :
    Sole (monitor (T := T) cfg producer consumer) .condEmplace
      (fun ch => ch.items.length < cfg.max ∨ Halted ch) producer where
  starts s t k may waits := by
    obtain ⟨_, value, rfl⟩ := waits_condEmplace waits
    simpa [monitor, single] using may
  blocked k ch waits blocked := by
    obtain ⟨full, running⟩ := condEmplace_blocked waits blocked
    simp only [not_or, not_lt]
    exact ⟨full, running⟩
  passes k ch ready now := by
    have effect := monitor_effect ready
    generalize ((monitor cfg producer consumer).sec k).body ch = e at effect now ⊢
    cases effect with
    | rejected closed => exact Or.inl (Or.inr closed)
    | pushed running slot => exact Or.inl (Or.inl (slot bounded))
    | close => exact Or.inr (Or.inr (Or.inl (by simp [bounded])))
    | drained pops none closed => exact Or.inl (Or.inr closed)
    | @taken k taken drained value rest pops some =>
      rcases now with slot | closed
      · by_cases full : ch.items.length = cfg.max
        · exact Or.inr (Or.inl (by simp [popNotifies, bounded, full]))
        · refine Or.inl (Or.inl ?_)
          simp only [some, List.length_cons] at full slot ⊢
          omega
      · exact Or.inl (Or.inr closed)
    | clear => exact Or.inr (Or.inr (Or.inl (by simp [bounded])))
    | empty => exact Or.inl now
    | size => exact Or.inl now

theorem condEmplace_closing (bounded : cfg.bounded = true) :
    NotifiesAll (monitor (T := T) cfg producer consumer) .condEmplace Halted where
  blocked k ch waits blocked := (condEmplace_blocked waits blocked).2
  passes k ch ready now := by
    have effect := monitor_effect ready
    generalize ((monitor cfg producer consumer).sec k).body ch = e at effect now ⊢
    cases effect with
    | close => exact Or.inr (Or.inl (by simp [bounded]))
    | _ => exact Or.inl now

variable [Fintype ι] {s : State ι (Channel T) Cond (Call T) (Reply T)}

/-- In every configuration, once all notifications are issued and all woken threads have checked
their predicates, nobody sleeps through an item, a free slot or a close. -/
theorem no_lost_wakeup
    (reached : (monitor cfg producer consumer).lts.Reaches noThrow s) (quiet : s.Quiet) (t : ι) :
    ((monitor cfg producer consumer).sleepsOn .condPop (s.phase t) = true →
      s.shared.items = [] ∧ s.shared.closed = false) ∧
    ((monitor cfg producer consumer).sleepsOn .condEmplace (s.phase t) = true →
      cfg.max ≤ s.shared.items.length ∧ s.shared.closed = false) := by
  have calm : ∀ {P : State ι (Channel T) Cond (Call T) (Reply T) → ι → Prop} s t,
      noThrow s (.throws t : Act ι (Call T)) → P s t := fun s t throws => by
    simp [noThrow, Act.isThrow] at throws
  constructor
  · intro asleep
    cases single : cfg.sc with
    | false =>
      have covered := (condPop_counted single).covered reached fun s t throws _ => calm s t throws
      obtain ⟨none, running⟩ := covered_quiet covered quiet asleep
      exact ⟨List.length_eq_zero_iff.mp none, by simpa using running⟩
    | true =>
      simpa using (condPop_sole single).quiet reached quiet asleep
  · intro asleep
    obtain ⟨k, _, waits⟩ := sleepsOn_iff.mp asleep
    obtain ⟨bounded, _⟩ := waits_condEmplace waits
    cases single : cfg.sp with
    | false =>
      have covered := (condEmplace_counted bounded single).covered reached
        fun s t throws _ => calm s t throws
      obtain ⟨none, running⟩ := covered_quiet covered quiet asleep
      exact ⟨by simp only [room] at none; omega, by simpa using running⟩
    | true =>
      simpa using (condEmplace_sole bounded single).quiet reached quiet asleep

/-- A consumer that was woken for an item and has taken it sleeps again, and nothing is left to wake it
for. -/
theorem no_lost_wakeup_parked :
    ∃ s, (monitor (T := ℕ) ⟨true, false, false, 1⟩ (0 : Fin 2) 1).lts.Reaches noThrow s ∧
      s.history = [(0, .emplace 7, .emplace true), (1, .pop, .pop (some 7))] ∧
      s.phase 1 = .asleep .pop ∧ s.shared.items = [] := by
  have reached : (monitor (T := ℕ) ⟨true, false, false, 1⟩ (0 : Fin 2) 1).lts.Reaches noThrow _ :=
    Lts.run_reaches [.start 1 .pop, .enter 1, .start 0 (.emplace 7), .enter 0, .notify 0 (some 1), .enter 1,
      .notify 1 none, .start 1 .pop, .enter 1] .init rfl
  exact ⟨_, reached, rfl, rfl, ((no_lost_wakeup reached (by decide) 1).1 rfl).1⟩

end Celestite.Channel
