import Mathlib.Tactic.FinCases
import Celestite.Pipeline.Flow

/-!
# The pipeline cannot stall

Each channel notifies its only producer and its only consumer, so in a quiet state a thread
asleep on a full channel waits for one further on that sleeps on a full channel too, and none
does at the sink; a thread asleep on an empty channel waits for one further back, and none does
at the source.
-/

namespace Celestite.Pipeline
open Concurrency Monitor

variable {T : ℕ → Type*} {p : Pipeline T} {x : Flow T}

theorem popped_chan {i : ℕ} (r : Channel.Reply (T i)) : (p.popped i x r).chan = x.chan := by
  unfold popped
  split <;> rfl

/-- A section acts on one channel as one of the channel's own sections, or on none. -/
theorem sec_lift {k : Call} (ready : (p.sec k).guard x = true) :
    ((p.sec k).body x = { shared := x, reply := () }) ∨
    ∃ j call y, y.chan = x.chan ∧ (Channel.sec (p.cfg j) call).guard (x.chan j) = true ∧
      (p.sec k).body x = lift j ((Channel.sec (p.cfg j) call).body (x.chan j)) y := by
  cases k with
  | pop i =>
    exact Or.inr ⟨i, .popTo (x.var i), _, popped_chan _, ready, rfl⟩
  | emplace i =>
    cases outbox : x.outbox i with
    | nil => exact Or.inl (by simp [sec, emplace, outbox])
    | cons value rest =>
      refine Or.inr ⟨i, .emplace value, { x with outbox := Function.update x.outbox i rest }, rfl, ?_, ?_⟩
      · simpa [sec, emplace, outbox, Channel.sec] using ready
      · simp [sec, emplace, outbox, Channel.sec]
  | close i =>
    exact Or.inr ⟨i, .close, { x with pc := Function.update x.pc i .done }, rfl, rfl, rfl⟩

variable {i : ℕ} {c : Channel.Cond} {ready : Channel (T i) → Prop}

/-- What makes a channel's predicate true is announced in the pipeline as it is in the channel. -/
theorem lift_passes
    (R : Sole (Channel.monitor (T := T i) (p.cfg i) () ()) c ready ()) (k : Call) (x : Flow T)
    (free : (p.sec k).guard x = true) (now : ready (((p.sec k).body x).shared.chan i)) :
    ready (x.chan i) ∨ .one (i, c) ∈ ((p.sec k).body x).owed ∨ .all (i, c) ∈ ((p.sec k).body x).owed ∨
      (i, c) ∈ ((p.sec k).body x).broadcast := by
  rcases sec_lift free with same | ⟨j, call, y, chan, passes, same⟩
  · rw [same] at now
    exact Or.inl now
  rw [same] at now ⊢
  rcases eq_or_ne i j with rfl | apart
  · have now : ready ((Channel.sec (p.cfg i) call).body (x.chan i)).shared := by
      simpa [lift] using now
    rcases R.passes call (x.chan i) passes now with before | one | all | cast
    · exact Or.inl before
    · exact Or.inr (Or.inl (List.mem_map.mpr ⟨_, one, rfl⟩))
    · exact Or.inr (Or.inr (Or.inl (List.mem_map.mpr ⟨_, all, rfl⟩)))
    · exact Or.inr (Or.inr (Or.inr (List.mem_map.mpr ⟨_, cast, rfl⟩)))
  · exact Or.inl (by simpa [lift, chan, apart] using now)

theorem waits_pop {k : Call} (waits : (p.sec k).waits = some (i, .condPop)) : k = .pop i := by
  cases k <;> simp_all [sec, pop, emplace, close]

theorem waits_emplace {k : Call} (waits : (p.sec k).waits = some (i, .condEmplace)) :
    k = .emplace i := by
  cases k <;> simp_all [sec, pop, emplace, close]

theorem condPop_sole (le : i ≤ p.last) :
    Sole p.monitor (i, .condPop)
      (fun x => (x.chan i).items ≠ [] ∨ Channel.Halted (x.chan i)) ⟨i + 1, by omega⟩ where
  starts s t k may waits := by
    obtain rfl := waits_pop waits
    simp [monitor, next] at may
    exact Fin.ext may.1.1
  blocked k x waits blocked := by
    obtain rfl := waits_pop waits
    exact (@Channel.condPop_sole _ _ _ (p.cfg i) () () rfl).blocked
      (.popTo (x.var i)) (x.chan i) rfl blocked
  passes k x free now := lift_passes (Channel.condPop_sole rfl) k x free now

theorem condEmplace_sole (le : i ≤ p.last) :
    Sole p.monitor (i, .condEmplace)
      (fun x => (x.chan i).items.length < p.max i ∨ Channel.Halted (x.chan i)) ⟨i, by omega⟩ where
  starts s t k may waits := by
    obtain rfl := waits_emplace waits
    simp [monitor, next] at may
    exact Fin.ext may.1.1
  blocked k x waits blocked := by
    obtain rfl := waits_emplace waits
    cases outbox : x.outbox i with
    | nil => simp [monitor, sec, emplace, outbox] at blocked
    | cons value rest =>
      refine (@Channel.condEmplace_sole _ _ _ (p.cfg i) () () rfl rfl).blocked
        (.emplace value) (x.chan i) rfl ?_
      simpa [monitor, sec, emplace, outbox, Channel.monitor, Channel.sec] using blocked
  passes k x free now := lift_passes (Channel.condEmplace_sole rfl rfl) k x free now

variable {s : State (Fin (p.last + 2)) (Flow T) (ℕ × Channel.Cond) Call Unit}
variable {allow : State (Fin (p.last + 2)) (Flow T) (ℕ × Channel.Cond) Call Unit →
  Act (Fin (p.last + 2)) Call → Prop}

theorem stuck_outside_or_asleep (stuck : p.monitor.Stuck s) (t : Fin (p.last + 2)) :
    (s.phase t = .outside ∧ ∀ k, p.next s.shared t k = false) ∨ ∃ k, s.phase t = .asleep k := by
  rcases rest_cases (stuck (.enter t) rfl) fun _ => stuck (.notify t _) rfl with
    out | asleep | ⟨k, _, blocked, waits⟩
  · exact Or.inl ⟨out, fun k => start_refused out (stuck (.start t k) rfl)⟩
  · exact Or.inr asleep
  · cases k with
    | pop i | emplace i => simp [monitor, sec, pop, emplace] at waits
    | close i => simp [monitor, sec, close] at blocked

theorem Flowing.finished (flow : Flowing p x) {t : ℕ} (le : t ≤ p.last + 1)
    (none : ∀ k, p.next x t k = false) : x.pc t = .done := by
  have outbox : x.outbox t = [] := by
    rcases Nat.lt_or_eq_of_le le with inner | rfl
    · simpa [next, show t ≤ p.last by omega] using none (.emplace t)
    · exact flow.final
  cases pc : x.pc t with
  | done => rfl
  | closing => simpa [next, outbox, pc] using none (.close t)
  | popping =>
    cases t with
    | zero => exact absurd pc flow.first
    | succ i => simpa [next, outbox, pc] using none (.pop i)

theorem stuck_rests (reached : p.monitor.lts.Reaches allow s) (stuck : p.monitor.Stuck s)
    (t : Fin (p.last + 2)) :
    (s.phase t = .outside ∧ s.shared.pc t = .done) ∨
    (∃ i, t.val = i + 1 ∧ (s.shared.chan i).items = [] ∧ (s.shared.chan i).closed = false) ∨
    (t.val ≤ p.last ∧ (s.shared.chan t).items ≠ []) := by
  obtain ⟨flow, turns⟩ := flowing reached
  have quiet : s.Quiet := fun u => by
    rcases stuck_outside_or_asleep stuck u with ⟨out, _⟩ | ⟨k, asleep⟩
    · simp [out, Phase.settled]
    · simp [asleep, Phase.settled]
  rcases stuck_outside_or_asleep stuck t with ⟨out, none⟩ | ⟨k, asleep⟩
  · exact Or.inl ⟨out, flow.finished (by omega) none⟩
  have turn := turns t k (by rw [asleep]; rfl)
  cases k with
  | pop i =>
    have here : t.val = i + 1 := by simp [next] at turn; exact turn.1.1
    have sleeps : p.monitor.sleepsOn (i, .condPop) (s.phase t) = true := by
      simp [asleep, sleepsOn, monitor, sec, pop]
    have blocked := (condPop_sole (by omega)).quiet reached quiet sleeps
    exact Or.inr (Or.inl ⟨i, here, by simpa using blocked⟩)
  | emplace i =>
    obtain ⟨here, le⟩ : t.val = i ∧ i ≤ p.last := by simp [next] at turn; exact turn.1
    have sleeps : p.monitor.sleepsOn (i, .condEmplace) (s.phase t) = true := by
      simp [asleep, sleepsOn, monitor, sec, emplace]
    have blocked := (condEmplace_sole le).quiet reached quiet sleeps
    refine Or.inr (Or.inr ⟨here ▸ le, ?_⟩)
    rw [here]
    intro none
    have := p.max_pos i
    simp [none] at blocked
    omega
  | close i =>
    have waits := waiting_waits reached t (.close i) (by rw [asleep]; rfl)
    simp [monitor, sec, close] at waits

/-- No channel of a stuck pipeline holds an item: its consumer would be asleep on a channel
further on that holds one, and the sink is asleep on none. -/
theorem stuck_empty (reached : p.monitor.lts.Reaches allow s) (stuck : p.monitor.Stuck s) {i : ℕ}
    (le : i ≤ p.last) : (s.shared.chan i).items = [] := by
  by_contra held
  -- on the number of channels further on
  induction h : p.last - i generalizing i with
  | zero =>
    rcases stuck_rests reached stuck ⟨i + 1, by omega⟩ with ⟨_, done⟩ | ⟨j, here, empty, _⟩ | ⟨inner, _⟩
    · exact held ((flowing reached).1.drained i le (by simp_all)).2
    · obtain rfl : i = j := by simpa using here
      exact held empty
    · simp only at inner
      omega
  | succ n ih =>
    rcases stuck_rests reached stuck ⟨i + 1, by omega⟩ with ⟨_, done⟩ | ⟨j, here, empty, _⟩ | ⟨inner, next⟩
    · exact held ((flowing reached).1.drained i le (by simp_all)).2
    · obtain rfl : i = j := by simpa using here
      exact held empty
    · exact ih (i := i + 1) inner next (by omega)

/-- Every thread of a stuck pipeline is done: a consumer that is not is asleep on an open channel,
whose producer is not done either, and the source pops from none. -/
theorem stuck_done (reached : p.monitor.lts.Reaches allow s) (stuck : p.monitor.Stuck s) (t : ℕ)
    (le : t < p.last + 2) : s.phase ⟨t, le⟩ = .outside ∧ s.shared.pc t = .done := by
  induction t with
  | zero =>
    rcases stuck_rests reached stuck ⟨0, le⟩ with done | ⟨i, here, _⟩ | ⟨inner, held⟩
    · exact done
    · simp at here
    · exact absurd (stuck_empty reached stuck inner) held
  | succ n ih =>
    rcases stuck_rests reached stuck ⟨n + 1, le⟩ with done | ⟨i, here, _, running⟩ | ⟨inner, held⟩
    · exact done
    · obtain rfl : n = i := by simpa using here
      have closed := ((flowing reached).1.closed n (by omega)).mpr (ih (by omega)).2
      simp [running] at closed
    · exact absurd (stuck_empty reached stuck inner) held

theorem Flowing.taken_all (flow : Flowing p x) (empty : ∀ i ≤ p.last, (x.chan i).items = [])
    (done : ∀ i ≤ p.last, x.pc i = .done) {i : ℕ} (le : i ≤ p.last) :
    x.taken i = p.items.map (p.composed i) := by
  induction i with
  | zero =>
    have source := flow.source
    rw [empty 0 le, flow.done 0 le (done 0 le)] at source
    simpa [composed] using source
  | succ i ih =>
    have stage := flow.stage i le
    rw [empty _ le, flow.done _ le (done _ le), ih (by omega), List.map_map] at stage
    simpa [composed] using stage

/-- The results are at any time the images of the first items, and a state in which nothing but
a spurious wakeup can happen is the end, with every thread done and every item processed. -/
theorem pipeline_correct (reached : p.monitor.lts.Reachable s) :
    p.result s.shared <+: p.items.map (p.composed p.last) ∧
    (p.monitor.Stuck s → (∀ t, s.phase t = .outside ∧ s.shared.pc t = .done) ∧
      p.result s.shared = p.items.map (p.composed p.last)) := by
  have flow := (flowing reached).1
  refine ⟨flow.taken_prefix le_rfl, fun stuck => ⟨fun t => stuck_done reached stuck t t.2, ?_⟩⟩
  exact flow.taken_all (fun i le => stuck_empty reached stuck le)
    (fun i le => (stuck_done reached stuck i (by omega)).2) le_rfl

/-- Two channels of one slot each, one item and one stage that adds one. -/
def small : Pipeline fun _ => ℕ := ⟨1, fun _ => 1, fun _ => le_rfl, fun _ => Nat.succ, [3], fun _ => 0⟩

/-- The item goes through both channels, and every thread finishes. -/
theorem pipeline_correct_small :
    ∃ s, small.monitor.lts.Reachable s ∧ (∀ t, s.phase t = .outside ∧ s.shared.pc t = .done) ∧
      small.result s.shared = [4] := by
  obtain ⟨s, ran, out, pc, outbox⟩ : ∃ s, small.monitor.lts.run (fun _ _ => True) small.monitor.lts.init
      [.start 0 (.emplace 0), .enter 0, .notify 0 none, .start 0 (.close 0), .enter 0,
        .notify 0 none, .notify 0 none, .start 1 (.pop 0), .enter 1, .notify 1 none,
        .start 1 (.emplace 1), .enter 1, .notify 1 none, .start 1 (.pop 0), .enter 1,
        .start 1 (.close 1), .enter 1, .notify 1 none, .notify 1 none, .start 2 (.pop 1), .enter 2,
        .notify 2 none, .start 2 (.pop 1), .enter 2] = some s ∧
      (∀ t : Fin 3, s.phase t = .outside) ∧ (∀ t : Fin 3, s.shared.pc t = .done) ∧
      ∀ t : Fin 3, s.shared.outbox t = [] := by
    refine ⟨_, rfl, ?_, ?_, ?_⟩ <;> intro t <;> fin_cases t <;> rfl
  have reached := Lts.run_reaches _ .init ran
  have none : ∀ t k, small.monitor.mayStart s t k = false := by
    intro t k
    have pc : s.shared.pc t = .done := pc t
    have outbox : s.shared.outbox t = [] := outbox t
    cases k with
    | pop i => simp [monitor, next, pc]
    | emplace i =>
      simp only [monitor, next, Bool.and_eq_false_iff, beq_eq_false_iff_ne]
      by_cases here : t.val = i
      · exact Or.inr (by simp [← here, outbox])
      · exact Or.inl (Or.inl here)
    | close i =>
      simp only [monitor, next, Bool.and_eq_false_iff, beq_eq_false_iff_ne]
      by_cases here : t.val = i
      · exact Or.inr (by simp [← here, pc])
      · exact Or.inl (Or.inl here)
  exact ⟨s, reached, (pipeline_correct reached).2 (stuck_of_outside out none)⟩

end Celestite.Pipeline
