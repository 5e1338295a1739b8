import Mathlib.Algebra.BigOperators.Group.Finset.Basic
import Mathlib.Algebra.Order.Group.Multiset
import Celestite.Channel.Fifo

/-!
# Items shared out to several threads

Threads that pop from one channel share its items between them: each item is handed to one of them or
cleared, each thread gets its items in the order in which they were accepted, and once one thread is
told that the channel is drained there is nothing left for any of them.
-/

namespace Celestite
open Concurrency Monitor Channel

variable {T ι : Type*}

namespace Fifo
variable {capacity : Option ℕ} {q q' : Fifo T} {h : List (ι × Call T × Reply T)}

/-- What a call hands to the thread that makes it. -/
def handed : Reply T → List T
  | .popTo true value | .pop (some value) => [value]
  | _ => []

/-- What a call throws away. -/
def dropped : Reply T → List T
  | .cleared values => values
  | _ => []

/-- The reply of a `pop` that finds the channel closed and drained. -/
def Ended (h : List (ι × Call T × Reply T)) : Prop :=
  ∃ e ∈ h, (∃ dst, e.2.2 = .popTo false dst) ∨ e.2.2 = .pop none

def handedTo [DecidableEq ι] (t : ι) (h : List (ι × Call T × Reply T)) : List T :=
  h.flatMap fun e => if e.1 = t then handed e.2.2 else []

def cleared (h : List (ι × Call T × Reply T)) : List T := h.flatMap fun e => dropped e.2.2

theorem removed_eq (h : List (ι × Call T × Reply T)) :
    removed h = h.flatMap fun e => handed e.2.2 ++ dropped e.2.2 := by
  unfold removed
  congr 1
  funext e
  obtain ⟨t, k, r⟩ := e
  cases r with
  | popTo found value => cases found <;> rfl
  | pop found => cases found <;> rfl
  | _ => rfl

theorem handedTo_sublist [DecidableEq ι] (t : ι) (h : List (ι × Call T × Reply T)) :
    (handedTo t h).Sublist (removed h) := by
  rw [removed_eq]
  induction h with
  | nil => exact .slnil
  | cons e h ih =>
    refine List.Sublist.append ?_ ih
    show (if e.1 = t then handed e.2.2 else []).Sublist _
    split
    · exact List.sublist_append_left _ _
    · exact List.nil_sublist _

theorem sum_handedTo [DecidableEq ι] [Fintype ι] (h : List (ι × Call T × Reply T)) :
    (removed h : Multiset T) = ∑ t, (handedTo t h : Multiset T) + (cleared h : Multiset T) := by
  rw [removed_eq]
  induction h with
  | nil => simp [handedTo, cleared]
  | cons e h ih =>
    have one : ∑ t, ((if e.1 = t then handed e.2.2 else [] : List T) : Multiset T) = handed e.2.2 := by
      rw [Finset.sum_eq_single e.1]
      · rw [if_pos rfl]
      · intro t _ other
        rw [if_neg (Ne.symm other)]
        rfl
      · intro absent
        exact absurd (Finset.mem_univ _) absent
    simp only [handedTo, cleared, List.flatMap_cons, ← Multiset.coe_add, Finset.sum_add_distrib] at ih ⊢
    rw [one, ih]
    exact add_add_add_comm _ _ _ _

theorem Step.ended {k : Call T} {r : Reply T} (next : Step capacity q k r q')
    (spent : q.shut = true ∧ q.held = []) : q'.shut = true ∧ q'.held = [] := by
  cases next with
  | accept running => simp [running] at spent
  | close => exact ⟨rfl, spent.2⟩
  | takeTo head | take head => simp [head] at spent
  | clear => exact ⟨spent.1, rfl⟩
  | _ => exact spent

/-- A queue that was found drained stays so. -/
theorem Runs.ended (runs : Runs capacity h q) (ended : Ended h) : q.shut = true ∧ q.held = [] := by
  induction runs with
  | nil => simp [Ended] at ended
  | @snoc h q q' t k r before next ih =>
    obtain ⟨e, member, told⟩ := ended
    rcases List.mem_append.mp member with earlier | now
    · exact next.ended (ih ⟨e, earlier, told⟩)
    · obtain rfl := List.mem_singleton.mp now
      cases next with
      | drainedTo bare shut => exact ⟨shut, bare⟩
      | drained bare shut => exact ⟨shut, bare⟩
      | _ => simp at told

theorem Step.silent {t : ι} {k : Call T} {r : Reply T} (next : Step capacity q k r q')
    (spent : q.shut = true ∧ q.held = []) : accepted [(t, k, r)] = [] ∧ handed r = [] := by
  cases next with
  | accept running => simp [running] at spent
  | takeTo head | take head => simp [head] at spent
  | threw running => cases k <;> exact ⟨rfl, rfl⟩
  | _ => exact ⟨rfl, rfl⟩

theorem Ended.append {before : List (ι × Call T × Reply T)} (ended : Ended before)
    (after : List (ι × Call T × Reply T)) : Ended (before ++ after) := by
  obtain ⟨e, member, told⟩ := ended
  exact ⟨e, List.mem_append_left _ member, told⟩

theorem Runs.spent [DecidableEq ι] {before after : List (ι × Call T × Reply T)} (runs : Runs capacity h q)
    (split : h = before ++ after) (ended : Ended before) :
    accepted after = [] ∧ ∀ t, handedTo t after = [] := by
  induction runs generalizing after with
  | nil =>
    obtain ⟨-, rfl⟩ := List.append_eq_nil_iff.mp split.symm
    exact ⟨rfl, fun t => rfl⟩
  | @snoc h q q' t k r earlier next ih =>
    rcases List.eq_nil_or_concat after with rfl | ⟨rest, last, rfl⟩
    · exact ⟨rfl, fun t => rfl⟩
    · rw [List.concat_eq_append, ← List.append_assoc] at split
      obtain ⟨rfl, same⟩ := List.append_inj' split rfl
      obtain rfl := List.singleton_inj.mp same
      obtain ⟨none, nobody⟩ := ih rfl
      obtain ⟨accepts, hands⟩ := next.silent (t := t) (earlier.ended (ended.append rest))
      rw [List.concat_eq_append]
      refine ⟨?_, fun u => ?_⟩
      · rw [accepted, List.filterMap_append]
        exact List.append_eq_nil_iff.mpr ⟨none, accepts⟩
      · rw [handedTo, List.flatMap_append, List.flatMap_singleton]
        refine List.append_eq_nil_iff.mpr ⟨nobody u, ?_⟩
        simp only [hands, ite_self]

end Fifo

namespace Channel
variable {cfg : ChannelConfig} [DecidableEq ι] [Fintype ι] {producer consumer : ι}
  {s : State ι (Channel T) Cond (Call T) (Reply T)}

/-- Every accepted item is handed to exactly one thread, thrown away by `clear`, or still held; each
thread gets its items in their order; and when some `pop` has found the channel drained, nothing is
held and nothing more is accepted or handed out. -/
theorem shared_out (reached : (monitor cfg producer consumer).lts.Reachable s) :
    (Fifo.accepted s.history : Multiset T) =
      ∑ t, (Fifo.handedTo t s.history : Multiset T) + (Fifo.cleared s.history : Multiset T) +
        (s.shared.items : Multiset T) ∧
    (∀ t, (Fifo.handedTo t s.history).Sublist (Fifo.accepted s.history)) ∧
    ∀ before after, s.history = before ++ after → Fifo.Ended before →
      s.shared.items = [] ∧ Fifo.accepted after = [] ∧ ∀ t, Fifo.handedTo t after = [] := by
  have runs := refines reached
  obtain ⟨values, -, -⟩ := runs.conserved
  refine ⟨?_, fun t => ?_, fun before after split ended => ?_⟩
  · rw [values, ← Multiset.coe_add, Fifo.sum_handedTo]
    rfl
  · rw [values]
    exact (Fifo.handedTo_sublist t _).trans (List.sublist_append_left _ _)
  · have all : Fifo.Ended s.history := by
      rw [split]
      exact ended.append after
    exact ⟨(runs.ended all).2, runs.spent split ended⟩

/-- One item for each of two threads, and the channel is closed. -/
theorem shared_out_two : ∃ s, (monitor (T := ℕ) ⟨false, true, false, 1⟩ (0 : Fin 3) 1).lts.Reachable s ∧
    Fifo.handedTo 1 s.history = [5] ∧ Fifo.handedTo 2 s.history = [6] ∧ s.shared.items = [] := by
  obtain ⟨s, ran, first, second, ended⟩ : ∃ s, (monitor (T := ℕ) ⟨false, true, false, 1⟩ (0 : Fin 3) 1).lts.run
      (fun _ _ => True) (monitor (T := ℕ) ⟨false, true, false, 1⟩ (0 : Fin 3) 1).lts.init
      [.start 0 (.emplace 5), .enter 0, .notify 0 none, .start 0 (.emplace 6), .enter 0, .notify 0 none,
        .start 0 .close, .enter 0, .notify 0 none, .start 1 .pop, .enter 1, .start 2 .pop, .enter 2,
        .start 1 .pop, .enter 1] = some s ∧
      Fifo.handedTo 1 s.history = [5] ∧ Fifo.handedTo 2 s.history = [6] ∧
      ∃ e ∈ s.history, e.2.2 = .pop none :=
    ⟨_, rfl, rfl, rfl, by decide⟩
  have reached := Lts.run_reaches _ .init ran
  obtain ⟨e, member, told⟩ := ended
  obtain ⟨-, -, spent⟩ := shared_out reached
  exact ⟨s, reached, first, second, (spent s.history [] (by simp) ⟨e, member, .inr told⟩).1⟩

end Channel
end Celestite
