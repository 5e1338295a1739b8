import Celestite.Concurrency.Monitor

/-!
# What a step of a monitor does

`step_move` is the inversion of `step`: every proof about runs splits on its cases and none
unfolds `step`.
-/

namespace Celestite.Concurrency.Monitor
variable {ι σ γ κ ρ : Type*}

section Moves
variable [DecidableEq γ] [DecidableEq ι] [Fintype ι]
variable {M : Monitor ι σ γ κ ρ} {s s' : State ι σ γ κ ρ} {a : Act ι κ}

inductive Move (M : Monitor ι σ γ κ ρ) (s : State ι σ γ κ ρ) :
    Act ι κ → State ι σ γ κ ρ → Prop where
  | start {t : ι} {k : κ} (out : s.phase t = .outside) (may : M.mayStart s t k = true) :
      Move M s (.start t k) { s with phase := Function.update s.phase t (.entering k) }
  | leave {t : ι} {k : κ} (here : (s.phase t).contending = some k)
      (ready : (M.sec k).guard s.shared = true) : Move M s (.enter t) (M.leave s t k)
  | sleep {t : ι} {k : κ} {c : γ} (here : (s.phase t).contending = some k)
      (blocked : (M.sec k).guard s.shared = false) (waits : (M.sec k).waits = some c) :
      Move M s (.enter t) { s with phase := Function.update s.phase t (.asleep k) }
  | throws {t : ι} {k : κ} {r : ρ} (here : (s.phase t).contending = some k)
      (ready : (M.sec k).guard s.shared = true) (fails : (M.sec k).fails s.shared = some r) :
      Move M s (.throws t)
        { s with phase := Function.update s.phase t .outside, history := s.history ++ [(t, k, r)] }
  | wakeOne {t u : ι} {c : γ} {ns : List (Notify γ)} (owes : s.phase t = .leaving (.one c) ns)
      (sleeps : M.sleepsOn c (s.phase u) = true) :
      Move M s (.notify t (some u))
        { s with phase :=
            Function.update (Function.update s.phase u (s.phase u).rouse) t (.owing ns) }
  | wakeNone {t : ι} {c : γ} {ns : List (Notify γ)} (owes : s.phase t = .leaving (.one c) ns)
      (nobody : ∀ u, M.sleepsOn c (s.phase u) = false) :
      Move M s (.notify t none) { s with phase := Function.update s.phase t (.owing ns) }
  | wakeAll {t : ι} {c : γ} {ns : List (Notify γ)} (owes : s.phase t = .leaving (.all c) ns) :
      Move M s (.notify t none)
        { s with phase := Function.update (M.wake [c] s.phase) t (.owing ns) }
  | spurious {t : ι} {k : κ} (sleeps : s.phase t = .asleep k) :
      Move M s (.spurious t) { s with phase := Function.update s.phase t (.woken k) }

theorem step_move (h : M.step s a = some s') : Move M s a s' := by
  cases a with
  | start t k =>
    simp only [step] at h
    split at h
    · rename_i allowed
      obtain rfl := Option.some.inj h
      obtain ⟨out, may⟩ := Bool.and_eq_true_iff.mp allowed
      refine .start ?_ may
      cases e : s.phase t <;> simp_all [Phase.isOutside]
    · contradiction
  | enter t =>
    obtain ⟨k, here, h⟩ := Option.bind_eq_some_iff.mp h
    split at h
    · rename_i ready
      obtain rfl := Option.some.inj h
      exact .leave here ready
    · rename_i blocked
      split at h
      · rename_i waits
        obtain rfl := Option.some.inj h
        obtain ⟨c, waits⟩ := Option.isSome_iff_exists.mp waits
        exact .sleep here (by simpa using blocked) waits
      · contradiction
  | throws t =>
    obtain ⟨k, here, h⟩ := Option.bind_eq_some_iff.mp h
    split at h
    · rename_i ready
      obtain ⟨r, fails, rfl⟩ := Option.map_eq_some_iff.mp h
      exact .throws here ready fails
    · contradiction
  | notify t wakes =>
    simp only [step] at h
    split at h
    · rename_i n ns owes
      obtain ⟨phase, issued, rfl⟩ := Option.map_eq_some_iff.mp h
      cases n with
      | one c =>
        cases wakes with
        | some u =>
          simp only [issue] at issued
          split at issued
          · rename_i sleeps
            obtain rfl := Option.some.inj issued
            exact .wakeOne owes sleeps
          · contradiction
        | none =>
          simp only [issue] at issued
          split at issued
          · rename_i nobody
            obtain rfl := Option.some.inj issued
            exact .wakeNone owes nobody
          · contradiction
      | all c =>
        cases wakes with
        | some u => simp [issue] at issued
        | none =>
          obtain rfl := Option.some.inj issued
          exact .wakeAll owes
    · contradiction
  | spurious t =>
    simp only [step] at h
    split at h
    · rename_i k sleeps
      obtain rfl := Option.some.inj h
      exact .spurious sleeps
    · contradiction

end Moves

theorem contending_inside {p : Phase κ γ} {k : κ} (h : p.contending = some k) :
    p.inside = some k := by
  cases p <;> simp_all [Phase.contending, Phase.inside]

section Wake
variable [DecidableEq γ] {M : Monitor ι σ γ κ ρ} {c : γ}

@[simp] theorem sleepsOn_owing (ns : List (Notify γ)) : M.sleepsOn c (.owing ns) = false := by
  cases ns <;> rfl

@[simp] theorem wokenFrom_owing (ns : List (Notify γ)) : M.wokenFrom c (.owing ns) = false := by
  cases ns <;> rfl

omit [DecidableEq γ] in
@[simp] theorem debts_owing (ns : List (Notify γ)) : (Phase.owing ns : Phase κ γ).debts = ns := by
  cases ns <;> rfl

theorem wokenFrom_outside : M.wokenFrom c .outside = false := rfl

omit [DecidableEq γ] in
@[simp] theorem debts_leaving (n : Notify γ) (ns : List (Notify γ)) :
    (Phase.leaving n ns : Phase κ γ).debts = n :: ns := rfl

theorem sleepsOn_contending {p : Phase κ γ} {k : κ} (here : p.contending = some k) :
    M.sleepsOn c p = false := by
  cases p <;> simp_all [Phase.contending, sleepsOn]

omit [DecidableEq γ] in
theorem debts_contending {p : Phase κ γ} {k : κ} (here : p.contending = some k) : p.debts = [] := by
  cases p <;> simp_all [Phase.contending, Phase.debts]

theorem wokenFrom_contending {p : Phase κ γ} {k : κ} (here : p.contending = some k)
    (h : M.wokenFrom c p = true) : (M.sec k).waits = some c := by
  cases p <;> simp_all [Phase.contending, wokenFrom]

theorem sleepsOn_iff {p : Phase κ γ} :
    M.sleepsOn c p = true ↔ ∃ k, p = .asleep k ∧ (M.sec k).waits = some c := by
  cases p <;> simp [sleepsOn]

theorem wake_eq (M : Monitor ι σ γ κ ρ) (cs : List γ) (phase : ι → Phase κ γ) (u : ι) :
    M.wake cs phase u = phase u ∨ ∃ k, phase u = .asleep k ∧ M.wake cs phase u = .woken k := by
  unfold wake
  split
  · cases phase u <;> simp [Phase.rouse]
  · exact Or.inl rfl

theorem wake_contending {cs : List γ} {phase : ι → Phase κ γ} {t : ι} {k : κ}
    (here : (phase t).contending = some k) : M.wake cs phase t = phase t := by
  rcases wake_eq M cs phase t with same | ⟨k', asleep, _⟩
  · exact same
  · simp [asleep, Phase.contending] at here

theorem wake_leaving {cs : List γ} {phase : ι → Phase κ γ} {t : ι} {n : Notify γ}
    {ns : List (Notify γ)} (owes : phase t = .leaving n ns) : M.wake cs phase t = phase t := by
  rcases wake_eq M cs phase t with same | ⟨k', asleep, _⟩
  · exact same
  · simp [asleep] at owes

theorem wake_inside (M : Monitor ι σ γ κ ρ) (cs : List γ) (phase : ι → Phase κ γ) (u : ι) :
    (M.wake cs phase u).inside = (phase u).inside := by
  rcases wake_eq M cs phase u with same | ⟨k, asleep, woken⟩
  · rw [same]
  · rw [woken, asleep]; rfl

theorem wake_waiting (M : Monitor ι σ γ κ ρ) (cs : List γ) (phase : ι → Phase κ γ) (u : ι) :
    (M.wake cs phase u).waiting = (phase u).waiting := by
  rcases wake_eq M cs phase u with same | ⟨k, asleep, woken⟩
  · rw [same]
  · rw [woken, asleep]; rfl

theorem wake_debts (M : Monitor ι σ γ κ ρ) (cs : List γ) (phase : ι → Phase κ γ) (u : ι) :
    (M.wake cs phase u).debts = (phase u).debts := by
  rcases wake_eq M cs phase u with same | ⟨k, asleep, woken⟩
  · rw [same]
  · rw [woken, asleep]; rfl

theorem wake_sleepsOn (M : Monitor ι σ γ κ ρ) (cs : List γ) (phase : ι → Phase κ γ) (u : ι) (c : γ) :
    M.sleepsOn c (M.wake cs phase u) = (M.sleepsOn c (phase u) && !cs.contains c) := by
  unfold wake
  cases e : phase u with
  | asleep k =>
    cases w : (M.sec k).waits with
    | none => simp [sleepsOn, w]
    | some d =>
      by_cases same : d = c
      · subst same
        by_cases member : d ∈ cs <;> simp [sleepsOn, w, member, Phase.rouse]
      · by_cases member : d ∈ cs <;> simp [sleepsOn, w, member, Phase.rouse, same]
  | _ => simp [sleepsOn]

theorem wake_wokenFrom (M : Monitor ι σ γ κ ρ) (cs : List γ) (phase : ι → Phase κ γ) (u : ι) (c : γ)
    (h : M.wokenFrom c (phase u) = true) : M.wokenFrom c (M.wake cs phase u) = true := by
  rcases wake_eq M cs phase u with same | ⟨k, asleep, _⟩
  · rwa [same]
  · simp [asleep, wokenFrom] at h

end Wake

end Celestite.Concurrency.Monitor
