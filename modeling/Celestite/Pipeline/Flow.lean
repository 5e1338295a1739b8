import Celestite.Pipeline.Model
import Celestite.Concurrency.Carry

/-!
# What flows through the pipeline

Nothing is lost or reordered between the source and the sink: what a consumer popped, what its
channel holds and what its producer is still to emplace make up what the producer was given.
-/

namespace Celestite.Pipeline
open Concurrency Monitor

variable {T : ℕ → Type*} {p : Pipeline T} {x : Flow T}

theorem pop_shared {i : ℕ} (ready : (p.pop i).guard x = true) :
    ((x.chan i).items = [] ∧ (x.chan i).closed = true ∧
      ((p.pop i).body x).shared =
        { x with pc := Function.update x.pc (i + 1) (if i < p.last then .closing else .done) }) ∨
    ∃ value rest, (x.chan i).items = value :: rest ∧
      ((p.pop i).body x).shared =
        { chan := Function.update x.chan i ⟨rest, (x.chan i).closed⟩
          outbox := if i < p.last then Function.update x.outbox (i + 1) [p.f i value] else x.outbox
          pc := x.pc
          var := Function.update x.var i value
          taken := Function.update x.taken i (x.taken i ++ [value]) } := by
  have effect : Channel.Effect (p.cfg i) (x.chan i) (.popTo (x.var i)) _ :=
    Channel.popWith_effect (.popTo (x.var i)) ready
  simp only [pop, lift, Channel.popTo]
  generalize (Channel.popWith (p.cfg i) (.popTo true) (.popTo false (x.var i))).body (x.chan i) = e
    at effect ⊢
  cases effect with
  | drained pops bare closed =>
    cases pops
    exact Or.inl ⟨bare, closed, by simp [popped]⟩
  | taken pops head =>
    cases pops
    exact Or.inr ⟨_, _, head, rfl⟩

theorem emplace_shared {i : ℕ} {value : T i} {rest : List (T i)} (outbox : x.outbox i = value :: rest)
    (running : (x.chan i).closed = false) :
    ((p.emplace i).body x).shared =
      { x with
        chan := Function.update x.chan i ⟨(x.chan i).items ++ [value], false⟩
        outbox := Function.update x.outbox i rest } := by
  simp [emplace, outbox, lift, Channel.emplace, running, cfg]

theorem close_shared (i : ℕ) :
    ((p.close i).body x).shared =
      { x with
        chan := Function.update x.chan i ⟨(x.chan i).items, true⟩
        pc := Function.update x.pc i .done } := rfl

/-- What was given to the source is taken, held or still to be sent, and so is the image of what
each stage took; a channel is closed when its producer is done, and its consumer stops popping
when it is closed and drained. -/
structure Flowing (p : Pipeline T) (x : Flow T) : Prop where
  source : x.taken 0 ++ (x.chan 0).items ++ x.outbox 0 = p.items
  stage : ∀ i < p.last,
    x.taken (i + 1) ++ (x.chan (i + 1)).items ++ x.outbox (i + 1) = (x.taken i).map (p.f i)
  closed : ∀ i ≤ p.last, (x.chan i).closed = true ↔ x.pc i = .done
  drained : ∀ i ≤ p.last, x.pc (i + 1) ≠ .popping → (x.chan i).closed = true ∧ (x.chan i).items = []
  done : ∀ i ≤ p.last, x.pc i = .done → x.outbox i = []
  first : x.pc 0 ≠ .popping
  final : x.outbox (p.last + 1) = []

theorem Flowing.init (p : Pipeline T) : Flowing p p.monitor.init where
  source := by simp [monitor]
  stage := by simp [monitor]
  closed i _ := by cases i <;> simp [monitor]
  drained i _ := by simp [monitor]
  done i _ := by cases i <;> simp [monitor]
  first := by simp [monitor]
  final := by simp [monitor]

theorem Flowing.pop {i : ℕ} (flow : Flowing p x) (outbox : x.outbox (i + 1) = [])
    (pc : x.pc (i + 1) = .popping) (ready : (p.pop i).guard x = true) :
    Flowing p ((p.pop i).body x).shared := by
  rcases pop_shared ready with ⟨bare, closed, same⟩ | ⟨value, rest, head, same⟩
  -- the channel is drained and the stage has nothing left to do but to close the next one
  · rw [same]
    refine ⟨flow.source, flow.stage, fun j le => ?_, fun j le => ?_, fun j le => ?_, ?_, flow.final⟩
    · rcases eq_or_ne j (i + 1) with rfl | apart
      · have before := flow.closed (i + 1) le
        simpa [pc, show i < p.last by omega] using before
      · simpa [apart] using flow.closed j le
    · rcases eq_or_ne j i with rfl | apart
      · simp [closed, bare]
      · simpa [apart] using flow.drained j le
    · rcases eq_or_ne j (i + 1) with rfl | apart
      · simp [show i < p.last by omega]
      · simpa [apart] using flow.done j le
    · simpa using flow.first
  -- the first item of the channel goes, through the stage, into its outbox
  · rw [same]
    have outboxes : ∀ j, j ≠ i + 1 → (if i < p.last then
        Function.update x.outbox (i + 1) [p.f i value] else x.outbox) j = x.outbox j := by
      intro j apart
      split
      · simp [apart]
      · rfl
    refine ⟨?_, fun j le => ?_, fun j le => ?_, fun j le => ?_, fun j le => ?_, flow.first, ?_⟩
    · have before := flow.source
      rw [← before]
      rcases eq_or_ne 0 i with rfl | apart
      · simp [outboxes, head]
      · simp [outboxes, apart]
    · have before := flow.stage j le
      rcases eq_or_ne j i with rfl | apart
      · rw [outbox, List.append_nil] at before
        simp [le, ← before]
      · rcases eq_or_ne (j + 1) i with rfl | next
        · rw [head] at before
          simp [outboxes, ← before]
        · simpa [outboxes, apart, next] using before
    · rcases eq_or_ne j i with rfl | apart
      · simpa using flow.closed j le
      · simpa [apart] using flow.closed j le
    · rcases eq_or_ne j i with rfl | apart
      · simp [pc]
      · simpa [apart] using flow.drained j le
    · rcases eq_or_ne j (i + 1) with rfl | apart
      · simp [pc]
      · simpa [outboxes, apart] using flow.done j le
    · rcases eq_or_ne p.last i with rfl | apart
      · simp [outbox]
      · simpa [outboxes, apart] using flow.final

theorem Flowing.emplace {i : ℕ} (flow : Flowing p x) (le : i ≤ p.last) (outbox : x.outbox i ≠ []) :
    Flowing p ((p.emplace i).body x).shared := by
  obtain ⟨value, rest, head⟩ := List.exists_cons_of_ne_nil outbox
  have working : x.pc i ≠ .done := fun done => outbox (flow.done i le done)
  have running : (x.chan i).closed = false := by
    rw [Bool.eq_false_iff]
    exact fun closed => working ((flow.closed i le).mp closed)
  rw [emplace_shared head running]
  refine ⟨?_, fun j lt => ?_, fun j le => ?_, fun j le => ?_, fun j le => ?_, flow.first, ?_⟩
  · have before := flow.source
    rw [← before]
    rcases eq_or_ne 0 i with rfl | apart
    · simp [head]
    · simp [apart]
  · have before := flow.stage j lt
    rcases eq_or_ne (j + 1) i with rfl | apart
    · rw [head] at before
      simp [← before]
    · simpa [apart] using before
  · rcases eq_or_ne j i with rfl | apart
    · simp [working]
    · simpa [apart] using flow.closed j le
  · intro stopped
    rcases eq_or_ne j i with rfl | apart
    · exact absurd (flow.drained j le stopped).1 (by simp [running])
    · simpa [apart] using flow.drained j le stopped
  · intro done
    rcases eq_or_ne j i with rfl | apart
    · exact absurd done working
    · simpa [apart] using flow.done j le done
  · simpa [show p.last + 1 ≠ i by omega] using flow.final

theorem Flowing.close {i : ℕ} (flow : Flowing p x) (outbox : x.outbox i = [])
    (pc : x.pc i = .closing) : Flowing p ((p.close i).body x).shared := by
  rw [close_shared]
  refine ⟨?_, fun j lt => ?_, fun j le => ?_, fun j le => ?_, fun j le => ?_, ?_, flow.final⟩
  · have before := flow.source
    rcases eq_or_ne 0 i with rfl | apart
    · simpa using before
    · simpa [apart] using before
  · have before := flow.stage j lt
    rcases eq_or_ne (j + 1) i with rfl | apart
    · simpa using before
    · simpa [apart] using before
  · rcases eq_or_ne j i with rfl | apart
    · simp
    · simpa [apart] using flow.closed j le
  · intro stopped
    have before := flow.drained j le (by
      rcases eq_or_ne (j + 1) i with rfl | apart
      · simp [pc]
      · simpa [apart] using stopped)
    rcases eq_or_ne j i with rfl | apart
    · simp [before]
    · simpa [apart] using before
  · rcases eq_or_ne j i with rfl | apart
    · simp [outbox]
    · simpa [apart] using flow.done j le
  · rcases eq_or_ne 0 i with rfl | apart
    · simp
    · simpa [apart] using flow.first

theorem next_frame {u : ℕ} {l : Call} (turn : p.next x u l = true) (ready : (p.sec l).guard x = true)
    {t : ℕ} (other : t ≠ u) :
    ((p.sec l).body x).shared.outbox t = x.outbox t ∧ ((p.sec l).body x).shared.pc t = x.pc t := by
  cases l with
  | pop i =>
    obtain rfl : u = i + 1 := by simp [next] at turn; exact turn.1.1
    rcases pop_shared ready with ⟨_, _, same⟩ | ⟨value, rest, _, same⟩
    · simp [sec, same, other]
    · by_cases inner : i < p.last <;> simp [sec, same, other, inner]
  | emplace i =>
    obtain rfl : u = i := by simp [next] at turn; exact turn.1.1
    cases outbox : x.outbox u <;> simp [sec, emplace, outbox, lift, other]
  | close i =>
    obtain rfl : u = i := by simp [next] at turn; exact turn.1.1
    simp [sec, close, lift, other]

variable {s : State (Fin (p.last + 2)) (Flow T) (ℕ × Channel.Cond) Call Unit}
variable {allow : State (Fin (p.last + 2)) (Flow T) (ℕ × Channel.Cond) Call Unit →
  Act (Fin (p.last + 2)) Call → Prop}

theorem flowing (reached : p.monitor.lts.Reaches allow s) :
    Flowing p s.shared ∧ ∀ t k, (s.phase t).inside = some k → p.next s.shared t k = true := by
  refine carry (I := fun x _ => Flowing p x)
    (P := fun x _ (t : Fin (p.last + 2)) k => p.next x t k = true) reached (.init p)
    (fun s t k _ may => may) (fun x h t k u l x' r other _ mine turn left => ?_)
    fun x h t k x' r flow turn left => ?_
  · cases left with
    | fails ready fails => cases l <;> simp [monitor, sec, pop, emplace, close] at fails
    | body ready =>
      obtain ⟨outbox, pc⟩ := next_frame turn ready (Fin.val_ne_of_ne other)
      cases k with
      | pop i => simpa only [next, monitor, outbox, pc] using mine
      | emplace i | close i =>
        obtain rfl : t.val = i := by simp [next] at mine; exact mine.1.1
        simpa only [next, monitor, outbox, pc] using mine
  · cases left with
    | fails ready fails => cases k <;> simp [monitor, sec, pop, emplace, close] at fails
    | body ready =>
      cases k with
      | pop i =>
        obtain ⟨⟨here, outbox⟩, pc⟩ : (t.val = i + 1 ∧ x.outbox t = []) ∧ x.pc t = .popping := by
          simpa [next] using turn
        rw [here] at outbox pc
        exact flow.pop outbox pc ready
      | emplace i =>
        obtain ⟨⟨_, le⟩, outbox⟩ : (t.val = i ∧ i ≤ p.last) ∧ x.outbox i ≠ [] := by
          simpa [next] using turn
        exact flow.emplace le outbox
      | close i =>
        obtain ⟨⟨_, outbox⟩, pc⟩ : (t.val = i ∧ x.outbox i = []) ∧ x.pc i = .closing := by
          simpa [next] using turn
        exact flow.close outbox pc

theorem Flowing.taken_prefix (flow : Flowing p x) {i : ℕ} (le : i ≤ p.last) :
    x.taken i <+: p.items.map (p.composed i) := by
  induction i with
  | zero =>
    rw [← flow.source, List.append_assoc]
    simp [composed]
  | succ i ih =>
    have here : x.taken (i + 1) <+: (x.taken i).map (p.f i) := by
      rw [← flow.stage i le, List.append_assoc]
      exact List.prefix_append _ _
    have before := (ih (by omega)).map (p.f i)
    rw [List.map_map] at before
    exact here.trans before

end Celestite.Pipeline
