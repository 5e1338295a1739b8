import Celestite.Concurrency.Move

/-!
# Invariants carried by the sections

What every section preserves holds of the shared state and the history throughout, and what
entitled a thread to start a call entitles it to the call until it leaves, if no other thread's
section revokes it. Every entry of the history was made in a state that the run went through.
-/

namespace Celestite.Concurrency.Monitor
variable {ι σ γ κ ρ : Type*}

/-- A thread leaves the section `k`, by its end or by an exception out of user code. -/
inductive Passes (M : Monitor ι σ γ κ ρ) (x : σ) (k : κ) : σ → ρ → Prop where
  | body (ready : (M.sec k).guard x = true) :
      Passes M x k ((M.sec k).body x).shared ((M.sec k).body x).reply
  | fails {r : ρ} (ready : (M.sec k).guard x = true) (fails : (M.sec k).fails x = some r) :
      Passes M x k x r

variable [DecidableEq γ] [DecidableEq ι] [Fintype ι]
variable {M : Monitor ι σ γ κ ρ} {s : State ι σ γ κ ρ} {allow : State ι σ γ κ ρ → Act ι κ → Prop}

/-- `I` of the shared state and the history, and `P` of each thread in a call, from what leaving
one section does. -/
theorem carry {I : σ → List (ι × κ × ρ) → Prop} {P : σ → List (ι × κ × ρ) → ι → κ → Prop}
    (h : M.lts.Reaches allow s) (init : I M.init [])
    (starts : ∀ s t k, I s.shared s.history → M.mayStart s t k = true → P s.shared s.history t k)
    (keeps : ∀ x h t k u l x' r, t ≠ u → I x h → P x h t k → P x h u l → Passes M x l x' r →
      P x' (h ++ [(u, l, r)]) t k)
    (passes : ∀ x h t k x' r, I x h → P x h t k → Passes M x k x' r → I x' (h ++ [(t, k, r)])) :
    I s.shared s.history ∧ ∀ t k, (s.phase t).inside = some k → P s.shared s.history t k := by
  refine h.invariant (I := fun s => I s.shared s.history ∧
      ∀ t k, (s.phase t).inside = some k → P s.shared s.history t k)
    ⟨init, fun t k inside => by simp [lts, Phase.inside] at inside⟩
    fun {s a s'} _ ih _ taken => ?_
  obtain ⟨shared, within⟩ := ih
  have update : ∀ {phase : ι → Phase κ γ} {t : ι} {p : Phase κ γ},
      (∀ u k, (phase u).inside = some k → P s.shared s.history u k) →
      (∀ k, p.inside = some k → P s.shared s.history t k) →
      ∀ u k, (Function.update phase t p u).inside = some k → P s.shared s.history u k := by
    intro phase t p rest here u k inside
    by_cases same : u = t
    · subst same
      exact here k (by simpa using inside)
    · exact rest u k (by simpa [same] using inside)
  have out : ∀ ns k, (Phase.owing ns : Phase κ γ).inside ≠ some k := by
    intro ns k
    cases ns <;> simp [Phase.owing, Phase.inside]
  have woken : ∀ cs u k, (M.wake cs s.phase u).inside = some k → P s.shared s.history u k :=
    fun cs u k inside => within u k (by rwa [wake_inside] at inside)
  cases step_move taken with
  | start out may =>
    refine ⟨shared, update within fun k same => ?_⟩
    obtain rfl := Option.some.inj same
    exact starts s _ _ shared may
  | @leave t k here ready =>
    have mine := within t k (contending_inside here)
    refine ⟨passes _ _ t k _ _ shared mine (.body ready), fun u l inside => ?_⟩
    by_cases same : u = t
    · subst same
      exact absurd (by simpa [leave] using inside) (out _ l)
    · exact keeps _ _ u l t k _ _ same shared (woken _ u l (by simpa [leave, same] using inside)) mine
        (.body ready)
  | sleep here blocked waits =>
    refine ⟨shared, update within fun k same => ?_⟩
    obtain rfl := Option.some.inj same
    exact within _ _ (contending_inside here)
  | @throws t k r here ready fails =>
    have mine := within t k (contending_inside here)
    refine ⟨passes _ _ t k _ _ shared mine (.fails ready fails), fun u l inside => ?_⟩
    by_cases same : u = t
    · subst same
      simp [Phase.inside] at inside
    · exact keeps _ _ u l t k _ _ same shared (within u l (by simpa [same] using inside)) mine
        (.fails ready fails)
  | wakeOne owes sleeps =>
    obtain ⟨k, asleep, _⟩ := sleepsOn_iff.mp sleeps
    refine ⟨shared, update (update within fun l same => ?_) fun k same => absurd same (out _ _)⟩
    rw [asleep] at same
    obtain rfl := Option.some.inj same
    exact within _ _ (by rw [asleep]; rfl)
  | wakeNone owes nobody => exact ⟨shared, update within fun k same => absurd same (out _ _)⟩
  | wakeAll owes => exact ⟨shared, update (woken _) fun k same => absurd same (out _ _)⟩
  | spurious sleeps =>
    refine ⟨shared, update within fun k same => ?_⟩
    obtain rfl := Option.some.inj same
    exact within _ _ (by rw [sleeps]; rfl)

theorem reaches_noThrow (safe : ∀ k x, (M.sec k).fails x = none) (h : M.lts.Reaches allow s) :
    M.lts.Reaches noThrow s := by
  refine h.invariant (I := M.lts.Reaches noThrow) .init fun {s a s'} _ ih _ taken => ?_
  refine ih.step ?_ taken
  cases step_move taken with
  | throws here ready fails => simp [safe] at fails
  | _ => rfl

omit [DecidableEq γ] [DecidableEq ι] [Fintype ι] in
theorem snoc_split {before after h : List (ι × κ × ρ)} {e d : ι × κ × ρ}
    (split : h ++ [d] = before ++ e :: after) :
    (h = before ∧ d = e) ∨ ∃ rest, h = before ++ e :: rest := by
  rcases List.eq_nil_or_concat after with rfl | ⟨rest, last, rfl⟩
  · obtain ⟨same, last⟩ := List.append_inj' split rfl
    exact Or.inl ⟨same, by simpa using last⟩
  · rw [List.concat_eq_append, ← List.cons_append, ← List.append_assoc] at split
    exact Or.inr ⟨rest, (List.append_inj' split rfl).1⟩

/-- Every entry of the history was made by leaving its section in a state of the run, whose
history was the part before the entry. -/
theorem past (h : M.lts.Reaches allow s) {before after : List (ι × κ × ρ)} {t : ι} {k : κ} {r : ρ}
    (split : s.history = before ++ (t, k, r) :: after) :
    ∃ e x', M.lts.Reaches allow e ∧ e.history = before ∧ (e.phase t).contending = some k ∧
      Passes M e.shared k x' r := by
  refine h.invariant (I := fun s => ∀ after, s.history = before ++ (t, k, r) :: after →
      ∃ e x', M.lts.Reaches allow e ∧ e.history = before ∧ (e.phase t).contending = some k ∧
        Passes M e.shared k x' r) (fun after split => by simp [lts] at split)
    (fun {s a s'} reached ih _ taken after split => ?_) after split
  cases step_move taken with
  | leave here ready =>
    rcases snoc_split split with ⟨same, last⟩ | ⟨rest, earlier⟩
    · obtain ⟨rfl, rfl, rfl⟩ := last
      exact ⟨s, _, reached, same, here, .body ready⟩
    · exact ih rest earlier
  | throws here ready fails =>
    rcases snoc_split split with ⟨same, last⟩ | ⟨rest, earlier⟩
    · obtain ⟨rfl, rfl, rfl⟩ := last
      exact ⟨s, _, reached, same, here, .fails ready fails⟩
    · exact ih rest earlier
  | _ => exact ih after split

end Celestite.Concurrency.Monitor
