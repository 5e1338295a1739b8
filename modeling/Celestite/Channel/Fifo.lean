import Celestite.Channel.Wakeups

/-!
# The channel is a closable FIFO queue

`Fifo` is the queue a channel stands for. `refines` shows that the sections of any run of the
channel, in the order they were executed, are a run of the queue; the laws of the channel are
read off the runs of the queue.
-/

namespace Celestite
open Concurrency Monitor

/-- A queue that may be closed, with the items it holds. -/
structure Fifo (T : Type*) where
  held : List T := []
  shut : Bool := false

namespace Fifo
open Channel (Call Reply)
variable {T ι : Type*} {capacity : Option ℕ} {q q' : Fifo T}

/-- Which reply each call may get and what it makes of the queue. -/
inductive Step (capacity : Option ℕ) (q : Fifo T) : Call T → Reply T → Fifo T → Prop where
  | accept {value : T} (running : q.shut = false) (fits : ∀ n ∈ capacity, q.held.length < n) :
      Step capacity q (.emplace value) (.emplace true) { q with held := q.held ++ [value] }
  | refuse {value : T} (shut : q.shut = true) : Step capacity q (.emplace value) (.emplace false) q
  | close : Step capacity q .close .close { q with shut := true }
  | takeTo {dst value : T} {rest : List T} (head : q.held = value :: rest) :
      Step capacity q (.popTo dst) (.popTo true value) { q with held := rest }
  | take {value : T} {rest : List T} (head : q.held = value :: rest) :
      Step capacity q .pop (.pop (some value)) { q with held := rest }
  | drainedTo {dst : T} (bare : q.held = []) (shut : q.shut = true) :
      Step capacity q (.popTo dst) (.popTo false dst) q
  | drained (bare : q.held = []) (shut : q.shut = true) : Step capacity q .pop (.pop none) q
  | clear : Step capacity q .clear (.cleared q.held) { q with held := [] }
  | empty : Step capacity q .empty (.empty q.held.isEmpty) q
  | size : Step capacity q .size (.size q.held.length) q
  | threw {k : Call T} (running : ∀ value, k = .emplace value → q.shut = false) :
      Step capacity q k .threw q

/-- The queue after a sequence of calls, started empty and open. -/
inductive Runs (capacity : Option ℕ) : List (ι × Call T × Reply T) → Fifo T → Prop where
  | nil : Runs capacity [] {}
  | snoc {h : List (ι × Call T × Reply T)} {q q' : Fifo T} {t : ι} {k : Call T} {r : Reply T}
      (before : Runs capacity h q) (next : Step capacity q k r q') :
      Runs capacity (h ++ [(t, k, r)]) q'

def accepted : List (ι × Call T × Reply T) → List T :=
  List.filterMap fun
    | (_, .emplace value, .emplace true) => some value
    | _ => none

def delivered : List (ι × Call T × Reply T) → List T :=
  List.filterMap fun
    | (_, _, .popTo true value) | (_, _, .pop (some value)) => some value
    | _ => none

def removed : List (ι × Call T × Reply T) → List T :=
  List.flatMap fun
    | (_, _, .popTo true value) | (_, _, .pop (some value)) => [value]
    | (_, _, .cleared dropped) => dropped
    | _ => []

def Shut (h : List (ι × Call T × Reply T)) : Prop := ∃ t, (t, Call.close, Reply.close) ∈ h

/-- What a call may return after the calls `h`. -/
structure Lawful (h : List (ι × Call T × Reply T)) (k : Call T) (r : Reply T) : Prop where
  refused : ∀ value, k = .emplace value → Shut h → r = .emplace false
  untaken : ∀ dst dst', k = .popTo dst → r = .popTo false dst' →
    dst' = dst ∧ Shut h ∧ accepted h = removed h
  nothing : k = .pop → r = .pop none → Shut h ∧ accepted h = removed h
  dropped : ∀ values, r = .cleared values → accepted h = removed h ++ values

theorem Runs.conserved {h : List (ι × Call T × Reply T)} (runs : Runs capacity h q) :
    accepted h = removed h ++ q.held ∧ (q.shut = true ↔ Shut h) ∧
    ∀ n ∈ capacity, q.held.length ≤ n := by
  induction runs with
  | nil => simp [accepted, removed, Shut]
  | @snoc h q q' t k r before next ih =>
    obtain ⟨values, shut, bound⟩ := ih
    simp only [accepted, removed, Shut] at values shut
    simp only [accepted, removed, Shut, List.filterMap_append, List.flatMap_append, values]
    cases next with
    | accept running fits =>
      refine ⟨by simp, by simpa using shut, fun n limit => ?_⟩
      have := fits n limit
      simp only [List.length_append, List.length_singleton]
      omega
    | close => exact ⟨by simp, by simp, bound⟩
    | takeTo head | take head =>
      refine ⟨by simp [head], by simpa using shut, fun n limit => ?_⟩
      have := bound n limit
      simp only [head, List.length_cons] at this
      simp only
      omega
    | clear => exact ⟨by simp, by simpa using shut, by simp⟩
    | _ => exact ⟨by simp, by simpa using shut, bound⟩

/-- As long as nothing is cleared, what left the queue was handed out. -/
theorem Runs.uncleared {h : List (ι × Call T × Reply T)} (runs : Runs capacity h q)
    (unclear : ∀ t r, (t, Call.clear, r) ∉ h) : removed h = delivered h := by
  induction runs with
  | nil => rfl
  | @snoc h q q' t k r before next ih =>
    have same := ih fun u r' member => unclear u r' (List.mem_append_left _ member)
    simp only [removed, delivered, List.flatMap_append, List.filterMap_append] at same ⊢
    rw [same]
    cases next with
    | clear => exact absurd (by simp) (unclear t (.cleared q.held))
    | _ => rfl

theorem Step.lawful {h : List (ι × Call T × Reply T)} {k : Call T} {r : Reply T}
    (next : Step capacity q k r q') (before : Runs capacity h q) : Lawful h k r := by
  obtain ⟨values, shut, _⟩ := before.conserved
  cases next with
  | accept running fits =>
    refine ⟨fun value same closed => ?_, by simp, by simp, by simp⟩
    simp [running] at shut
    exact absurd closed shut
  | refuse closed => exact ⟨by simp, by simp, by simp, by simp⟩
  | drainedTo bare closed =>
    exact ⟨by simp, by simp [shut.mp closed, values, bare], by simp, by simp⟩
  | drained bare closed => exact ⟨by simp, by simp, by simp [shut.mp closed, values, bare], by simp⟩
  | clear => exact ⟨by simp, by simp, by simp, by simp [values]⟩
  | threw running =>
    refine ⟨fun value same closed => ?_, by simp, by simp, by simp⟩
    rw [← shut, running value same] at closed
    contradiction
  | _ => exact ⟨by simp, by simp, by simp, by simp⟩

theorem Runs.lawful {h : List (ι × Call T × Reply T)} (runs : Runs capacity h q)
    {pre post : List (ι × Call T × Reply T)} {t : ι} {k : Call T} {r : Reply T}
    (split : h = pre ++ (t, k, r) :: post) : Lawful pre k r := by
  induction runs generalizing post with
  | nil => simp at split
  | @snoc h q q' t' k' r' before next ih =>
    rcases snoc_split split with ⟨rfl, last⟩ | ⟨rest, earlier⟩
    · obtain ⟨rfl, rfl, rfl⟩ := last
      exact next.lawful before
    · exact ih earlier

end Fifo

namespace Channel
variable {T ι : Type*} {cfg : ChannelConfig}

def fifo (ch : Channel T) : Fifo T := ⟨ch.items, ch.closed⟩

def capacity (cfg : ChannelConfig) : Option ℕ := if cfg.bounded then some cfg.max else none

theorem Effect.refines {ch : Channel T} {k : Call T} {e : Exit (Channel T) Cond (Reply T)}
    (effect : Effect cfg ch k e) :
    Fifo.Step (capacity cfg) ch.fifo k e.reply e.shared.fifo := by
  cases effect with
  | rejected closed => exact .refuse closed
  | pushed running room =>
    refine .accept running fun n limit => ?_
    cases bounded : cfg.bounded
    · simp [capacity, bounded] at limit
    · obtain rfl : cfg.max = n := by simpa [capacity, bounded] using limit
      exact room bounded
  | close => exact .close
  | drained pops bare closed =>
    cases pops with
    | popTo dst => exact .drainedTo bare closed
    | pop => exact .drained bare closed
  | taken pops head =>
    cases pops with
    | popTo dst => exact .takeTo head
    | pop => exact .take head
  | clear => exact .clear
  | empty => exact .empty
  | size => exact .size

theorem fails_refines {ch : Channel T} {k : Call T} {r : Reply T} (fails : (sec cfg k).fails ch = some r) :
    Fifo.Step (capacity cfg) ch.fifo k r ch.fifo := by
  cases k with
  | emplace value =>
    cases closed : ch.closed with
    | true => simp [sec, emplace, closed] at fails
    | false =>
      obtain rfl : .threw = r := by simpa [sec, emplace, closed] using fails
      exact .threw fun _ _ => closed
  | popTo dst | pop =>
    obtain ⟨_, rfl⟩ : ch.items ≠ [] ∧ .threw = r := by
      simpa [sec, popTo, pop, popWith] using fails
    exact .threw (by simp)
  | close | clear | empty | size => simp [sec, close, clear, empty, size] at fails

variable [DecidableEq ι] [Fintype ι] {producer consumer : ι}
variable {s : State ι (Channel T) Cond (Call T) (Reply T)}

/-- The calls of a run, in the order of their critical sections, are calls of the queue. -/
theorem refines {allow : State ι (Channel T) Cond (Call T) (Reply T) → Act ι (Call T) → Prop}
    (reached : (monitor cfg producer consumer).lts.Reaches allow s) :
    Fifo.Runs (capacity cfg) s.history s.shared.fifo := by
  refine reached.invariant (I := fun s => Fifo.Runs (capacity cfg) s.history s.shared.fifo) .nil
    fun {s a s'} _ ih _ taken => ?_
  cases step_move taken with
  | leave here ready => exact ih.snoc (sec_effect ready).refines
  | throws here ready fails => exact ih.snoc (fails_refines fails)
  | _ => exact ih

/-- The channel is a linearizable bounded queue that can be closed, also when user code throws. -/
theorem linearizable (reached : (monitor cfg producer consumer).lts.Reachable s) :
    Fifo.accepted s.history = Fifo.removed s.history ++ s.shared.items ∧
    ((∀ t r, (t, Call.clear, r) ∉ s.history) → Fifo.removed s.history = Fifo.delivered s.history) ∧
    (cfg.bounded = true → s.shared.items.length ≤ cfg.max) ∧
    (∀ before t k r after, s.history = before ++ (t, k, r) :: after → Fifo.Lawful before k r) ∧
    (Fifo.Shut s.history → ∀ t value, (s.phase t).contending = some (.emplace value) →
      (monitor cfg producer consumer).step s (.enter t) = some
        { s with
          phase := Function.update s.phase t .outside
          history := s.history ++ [(t, .emplace value, .emplace false)] }) ∧
    (Fifo.Shut s.history → s.Quiet → ∀ t,
      (monitor cfg producer consumer).sleepsOn .condEmplace (s.phase t) = false) := by
  have runs := refines reached
  obtain ⟨values, shut, bound⟩ := runs.conserved
  refine ⟨values, runs.uncleared, fun bounded => ?_, fun _ _ _ _ _ split => runs.lawful split, ?_, ?_⟩
  · exact bound cfg.max (by simp [capacity, bounded])
  -- a producer that was held back goes through its section and drops its value
  · intro closed t value here
    have halted : s.shared.closed = true := shut.mpr closed
    have rejected : (emplace cfg value).body s.shared =
        { shared := s.shared, reply := .emplace false } := by simp [emplace, halted]
    have ready : (emplace cfg value).guard s.shared = true := by simp [emplace, halted]
    simp only [step, here, Option.bind_some, monitor, sec, ready, if_true, leave, rejected,
      Option.some.injEq, State.mk.injEq, true_and, and_true]
    funext u
    by_cases same : u = t
    · simp [same, Phase.owing]
    · simp [same, wake]
  · intro closed quiet t
    rw [Bool.eq_false_iff]
    intro asleep
    obtain ⟨k, _, waits⟩ := sleepsOn_iff.mp asleep
    have awake := (condEmplace_closing (waits_condEmplace waits).1).quiet reached quiet
      (shut.mpr closed) t
    simp [awake] at asleep

/-- The second of two values waits for a slot, gets it and is handed out last. -/
theorem linearizable_handover : ∃ s, (monitor (T := ℕ) ⟨true, true, true, 1⟩ (0 : Fin 2) 1).lts.Reachable s ∧
    s.shared.items = [] ∧ Fifo.accepted s.history = [5, 6] ∧
    Fifo.accepted s.history = Fifo.removed s.history ++ s.shared.items := by
  have reached : (monitor (T := ℕ) ⟨true, true, true, 1⟩ (0 : Fin 2) 1).lts.Reachable _ :=
    Lts.run_reaches [.start 0 (.emplace 5), .enter 0, .notify 0 none, .start 0 (.emplace 6),
      .enter 0, .start 1 .pop, .enter 1, .notify 1 (some 0), .enter 0, .start 1 (.popTo 0),
      .enter 1, .notify 1 none] .init rfl
  exact ⟨_, reached, rfl, rfl, (linearizable reached).1⟩

end Channel
end Celestite
