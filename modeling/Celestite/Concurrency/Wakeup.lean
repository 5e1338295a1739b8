import Celestite.Concurrency.Carry
import Celestite.Concurrency.Census

/-!
# No lost wakeups

Four rules for a condition variable, by how it is notified: one `notify_one` for each unit a
waiter may take (`Counted`), a notification when the predicate of the only waiter turns true
(`Sole`), and `notify_all` whenever the predicate turns true, under the lock (`Broadcast`) or
after it (`NotifiesAll`). Each asks something of the sections alone and concludes about every
state of every run.
-/

namespace Celestite.Concurrency.Monitor
variable {ι σ γ κ ρ : Type*} [DecidableEq γ]
variable {M : Monitor ι σ γ κ ρ} {c : γ} {s s' : State ι σ γ κ ρ}

section Counting
variable [Fintype ι]

/-- Every sleeper has a notification on its way, or the units left are few enough for the
notifications and the woken threads. `halted` is the state in which waiting is over for good. -/
def Covered (M : Monitor ι σ γ κ ρ) (c : γ) (units : σ → ℕ) (halted : σ → Prop)
    (s : State ι σ γ κ ρ) : Prop :=
  0 < owed (.all c) s ∨ M.sleepers c s ≤ owed (.one c) s ∨
    (¬ halted s.shared ∧ units s.shared ≤ owed (.one c) s + M.woken c s)

def Spared (M : Monitor ι σ γ κ ρ) (c : γ) (units : σ → ℕ) (halted : σ → Prop)
    (s : State ι σ γ κ ρ) (t : ι) : Prop :=
  0 < owed (.all c) s ∨ M.sleepers c s ≤ owed (.one c) s ∨
    (¬ halted s.shared ∧
      units s.shared + (M.wokenFrom c (s.phase t)).toNat ≤ owed (.one c) s + M.woken c s)

instance (units : σ → ℕ) (halted : σ → Prop) [DecidablePred halted] (s : State ι σ γ κ ρ) (t : ι) :
    Decidable (Spared M c units halted s t) := inferInstanceAs (Decidable (_ ∨ _ ∨ _))

/-- A wait on `c` ends when there is a unit or the monitor is halted; a section that waits on
`c` takes a unit, and each unit a section adds comes with a `notify_one`. -/
structure Counted (M : Monitor ι σ γ κ ρ) (c : γ) (units : σ → ℕ) (halted : σ → Prop) : Prop where
  blocked : ∀ k x, (M.sec k).waits = some c → (M.sec k).guard x = false → units x = 0 ∧ ¬ halted x
  passes : ∀ k x, (M.sec k).guard x = true →
    .all c ∈ ((M.sec k).body x).owed ∨ c ∈ ((M.sec k).body x).broadcast ∨
    (halted ((M.sec k).body x).shared ↔ halted x) ∧
      (¬ halted x → units ((M.sec k).body x).shared + M.takes c k ≤
        units x + ((M.sec k).body x).owed.count (.one c))

variable {units : σ → ℕ} {halted : σ → Prop}

omit [DecidableEq γ] [Fintype ι] in
theorem settled_debts {p : Phase κ γ} (h : p.settled = true) : p.debts = [] := by
  cases p <;> first | rfl | contradiction

omit [Fintype ι] in
theorem settled_wokenFrom {p : Phase κ γ} (h : p.settled = true) : M.wokenFrom c p = false := by
  cases p <;> first | rfl | contradiction

theorem quiet_owed (quiet : s.Quiet) (n : Notify γ) : owed n s = 0 :=
  census_zero.mpr fun t => by simp [settled_debts (quiet t)]

theorem quiet_woken (quiet : s.Quiet) : M.woken c s = 0 :=
  census_zero.mpr fun t => by simp [settled_wokenFrom (quiet t)]

theorem covered_quiet (h : Covered M c units halted s) (quiet : s.Quiet) {t : ι}
    (asleep : M.sleepsOn c (s.phase t) = true) : units s.shared = 0 ∧ ¬ halted s.shared := by
  have sleepers : 0 < M.sleepers c s := census_pos (t := t) (by simp [asleep])
  have ones := quiet_owed quiet (.one c)
  have alls := quiet_owed quiet (.all c)
  have woken := quiet_woken (M := M) (c := c) quiet
  rcases h with h | h | ⟨running, h⟩
  · omega
  · omega
  · exact ⟨by omega, running⟩

variable [DecidableEq ι] {a : Act ι κ} {allow : State ι σ γ κ ρ → Act ι κ → Prop}

theorem leave_covered (R : Counted M c units halted) {t : ι} {k : κ}
    (h : Covered M c units halted s) (here : (s.phase t).contending = some k)
    (ready : (M.sec k).guard s.shared = true) : Covered M c units halted (M.leave s t k) := by
  obtain ⟨owes, fewer, cleared, more⟩ := leave_census (M := M) (c := c) here
  have ones := owes (.one c)
  have alls := owes (.all c)
  unfold Covered at h ⊢
  rcases R.passes k s.shared ready with all | cast | ⟨same, balance⟩
  · have := List.count_pos_iff.mpr all
    exact Or.inl (by omega)
  · exact Or.inr (Or.inl (by have := cleared cast; omega))
  · rcases h with h | h | ⟨running, h⟩
    · exact Or.inl (by omega)
    · exact Or.inr (Or.inl (by omega))
    · have := balance running
      refine Or.inr (Or.inr ⟨fun halted => running (same.mp halted), ?_⟩)
      change units ((M.sec k).body s.shared).shared ≤ _
      omega

omit [DecidableEq ι] in
theorem Covered.mono (h : Covered M c units halted s) (same : s'.shared = s.shared)
    (alls : owed (.all c) s ≤ owed (.all c) s') (ones : owed (.one c) s ≤ owed (.one c) s')
    (fewer : M.sleepers c s' ≤ M.sleepers c s) (more : M.woken c s ≤ M.woken c s') :
    Covered M c units halted s' := by
  unfold Covered at h ⊢
  rw [same]
  rcases h with h | h | ⟨running, h⟩
  · exact Or.inl (by omega)
  · exact Or.inr (Or.inl (by omega))
  · exact Or.inr (Or.inr ⟨running, by omega⟩)

theorem wakeOne_covered {t u : ι} {d : γ} {ns : List (Notify γ)} (h : Covered M c units halted s)
    (owes : s.phase t = .leaving (.one d) ns) (sleeps : M.sleepsOn d (s.phase u) = true)
    (same : s'.shared = s.shared) (moved : s'.phase =
      Function.update (Function.update s.phase u (s.phase u).rouse) t (.owing ns)) :
    Covered M c units halted s' := by
  obtain ⟨k, asleep, waits⟩ := sleepsOn_iff.mp sleeps
  have apart : t ≠ u := by rintro rfl; simp [asleep] at owes
  rw [asleep, Phase.rouse] at moved
  -- First the sleeper wakes, then the thread that woke it has one notification less to issue.
  obtain ⟨mid, first⟩ : ∃ mid : State ι σ γ κ ρ, mid.phase = Function.update s.phase u (.woken k) :=
    ⟨{ s with phase := Function.update s.phase u (.woken k) }, rfl⟩
  rw [← first] at moved
  obtain ⟨owedMid, sleepsMid, wokenMid⟩ := rouse_census (M := M) (c := c) asleep first
  have owesMid : mid.phase t = .leaving (.one d) ns := by simpa [first, apart] using owes
  obtain ⟨owedEnd, sleepsEnd, wokenEnd⟩ := paid_census (M := M) (c := c) owesMid moved
  have ones := owedEnd (.one c)
  have alls := owedEnd (.all c)
  rw [owedMid] at ones alls
  simp only [waits, Notify.one.injEq, Option.some.injEq, reduceCtorEq, if_false, Nat.add_zero]
    at sleepsMid wokenMid ones alls
  by_cases on : d = c
  · simp only [if_pos on] at sleepsMid wokenMid ones
    unfold Covered at h ⊢
    rw [same]
    rcases h with h | h | ⟨running, h⟩
    · exact Or.inl (by omega)
    · exact Or.inr (Or.inl (by omega))
    · exact Or.inr (Or.inr ⟨running, by omega⟩)
  · simp only [if_neg on] at sleepsMid wokenMid ones
    exact h.mono same (by omega) (by omega) (by omega) (by omega)

/-- Each way through a step keeps `Covered`; a throw does so when its thread is not needed. -/
theorem Counted.move (R : Counted M c units halted) (h : Covered M c units halted s)
    (m : Move M s a s')
    (spared : ∀ t, a = .throws t → M.wokenFrom c (s.phase t) = true → Spared M c units halted s t) :
    Covered M c units halted s' := by
  cases m with
  | @start t k out may =>
    obtain ⟨owes, sleeps, wokens⟩ := quiet_census (M := M) (c := c) (s := s)
      (e := { s with phase := Function.update s.phase t (.entering k) }) rfl (by rw [out]; rfl) (by rw [out]; rfl)
      (by rw [out]; rfl)
    exact h.mono rfl (owes _).ge (owes _).ge sleeps.le wokens.ge
  | leave here ready => exact leave_covered R h here ready
  | @sleep t k d here blocked waits =>
    by_cases on : d = c
    -- a thread goes to sleep on `c` only while there is nothing for it to wait for
    · subst on
      obtain ⟨empty, running⟩ := R.blocked k _ waits blocked
      exact Or.inr (Or.inr ⟨running, by simp only; omega⟩)
    · have elsewhere : M.wokenFrom c (s.phase t) = false := by
        rw [Bool.eq_false_iff]
        intro woken
        have := wokenFrom_contending here woken
        simp_all
      have off : (some d == some c) = false := by simpa using on
      obtain ⟨owes, sleeps, wokens⟩ := quiet_census (M := M) (c := c) (s := s)
        (e := { s with phase := Function.update s.phase t (.asleep k) }) rfl
        (by rw [sleepsOn_contending here, sleepsOn, waits, off]) elsewhere.symm (debts_contending here).symm
      exact h.mono rfl (owes _).ge (owes _).ge sleeps.le wokens.ge
  | @throws t k r here ready fails =>
    -- the thread may have been the one woken for a unit, which is then left for the others
    have spare : Spared M c units halted s t := by
      cases w : M.wokenFrom c (s.phase t)
      · simpa [Spared, Covered, w] using h
      · exact spared t rfl w
    have sleeps := sleepers_update (M := M) (c := c) (s := s) (e := { s with
      phase := Function.update s.phase t .outside, history := s.history ++ [(t, k, r)] }) rfl
    have wokens := woken_update (M := M) (c := c) (s := s) (e := { s with
      phase := Function.update s.phase t .outside, history := s.history ++ [(t, k, r)] }) rfl
    have owes := owed_update (s := s) (e := { s with
      phase := Function.update s.phase t .outside, history := s.history ++ [(t, k, r)] }) rfl
    simp only [sleepsOn_contending here, debts_contending here] at sleeps wokens owes
    simp only [sleepsOn, wokenFrom_outside, Phase.debts, List.count_nil, Nat.add_zero, Bool.toNat_false]
      at sleeps wokens owes
    have ones := owes (.one c)
    have alls := owes (.all c)
    unfold Spared at spare
    unfold Covered
    rcases spare with spare | spare | ⟨running, spare⟩
    · exact Or.inl (by omega)
    · exact Or.inr (Or.inl (by omega))
    · exact Or.inr (Or.inr ⟨running, by simp only; omega⟩)
  | wakeOne owes sleeps => exact wakeOne_covered h owes sleeps rfl rfl
  | @wakeNone t d ns owes nobody =>
    obtain ⟨owedEnd, sleepsEnd, wokenEnd⟩ := paid_census (M := M) (c := c) (s := s)
      (e := { s with phase := Function.update s.phase t (.owing ns) }) owes rfl
    have ones := owedEnd (.one c)
    have alls := owedEnd (.all c)
    simp only [Notify.one.injEq, reduceCtorEq, if_false, Nat.add_zero] at ones alls
    by_cases on : d = c
    -- a `notify_one` that wakes nobody found nobody asleep
    · subst on
      have none : M.sleepers d s = 0 := census_zero.mpr fun u => by simp [nobody u]
      exact Or.inr (Or.inl (by omega))
    · simp only [if_neg on] at ones
      exact h.mono rfl (by omega) (by omega) (by omega) (by omega)
  | @wakeAll t d ns owes =>
    have still : (M.roused [d] s).phase t = .leaving (.all d) ns :=
      (wake_leaving owes).trans owes
    obtain ⟨owedEnd, sleepsEnd, wokenEnd⟩ := paid_census (M := M) (c := c) (s := M.roused [d] s)
      (e := { s with phase := Function.update (M.wake [d] s.phase) t (.owing ns) }) still rfl
    have fewer := sleepers_roused (M := M) (c := c) (s := s) [d]
    have more := woken_roused (M := M) (c := c) (s := s) [d]
    have ones := owedEnd (.one c)
    have alls := owedEnd (.all c)
    simp only [owed_roused, Notify.all.injEq, reduceCtorEq, if_false, Nat.add_zero] at ones alls
    by_cases on : d = c
    · have none := fewer.2 (by simp [on])
      exact Or.inr (Or.inl (by omega))
    · simp only [if_neg on] at alls
      exact h.mono rfl (by omega) (by omega) (by omega) (by omega)
  | @spurious t k asleep =>
    obtain ⟨owedEnd, sleepsEnd, wokenEnd⟩ := rouse_census (M := M) (c := c)
      (e := { s with phase := Function.update s.phase t (.woken k) }) asleep rfl
    exact h.mono rfl (owedEnd _).ge (owedEnd _).ge (by omega) (by omega)

/-- Along every run in which no woken thread that is needed throws, waits on `c` stay covered. -/
theorem Counted.covered (R : Counted M c units halted) (h : M.lts.Reaches allow s)
    (spared : ∀ s t, allow s (.throws t) → M.wokenFrom c (s.phase t) = true →
      Spared M c units halted s t) : Covered M c units halted s := by
  refine h.invariant (Or.inr (Or.inl ?_)) fun _ ih allowed taken =>
    R.move ih (step_move taken) ?_
  · exact (census_zero.mpr fun _ => rfl).trans_le (Nat.zero_le _)
  · rintro t rfl
    exact spared _ t allowed

end Counting

/-! ### Predicates that a notification announces -/

section Announced
variable [DecidableEq ι] [Fintype ι] {allow : State ι σ γ κ ρ → Act ι κ → Prop} {a : Act ι κ}
variable {ready : σ → Prop} {sole : ι}

omit [Fintype ι] in
/-- Whoever sleeps after a move slept before it, or found its predicate false just now. -/
theorem Move.asleep (m : Move M s a s') {u : ι} (h : M.sleepsOn c (s'.phase u) = true) :
    M.sleepsOn c (s.phase u) = true ∨
    ∃ k, (M.sec k).waits = some c ∧ (M.sec k).guard s.shared = false ∧ s'.shared = s.shared := by
  have other : ∀ {phase : ι → Phase κ γ} {t : ι} {p : Phase κ γ}, M.sleepsOn c p = false →
      M.sleepsOn c (Function.update phase t p u) = true → M.sleepsOn c (phase u) = true := by
    intro phase t p awake asleep
    by_cases same : u = t
    · subst same
      simp [awake] at asleep
    · simpa [same] using asleep
  cases m with
  | start out may => exact Or.inl (other rfl h)
  | leave here ready =>
    have before := other (sleepsOn_owing _) h
    rw [wake_sleepsOn, Bool.and_eq_true_iff] at before
    exact Or.inl before.1
  | @sleep t k d here blocked waits =>
    by_cases on : d = c
    · subst on
      exact Or.inr ⟨k, waits, blocked, rfl⟩
    · exact Or.inl (other (by simpa [sleepsOn, waits] using on) h)
  | throws here ready fails => exact Or.inl (other rfl h)
  | @wakeOne t v d ns owes sleeps =>
    obtain ⟨k, asleep, _⟩ := sleepsOn_iff.mp sleeps
    have before := other (sleepsOn_owing _) h
    rw [asleep] at before
    exact Or.inl (other rfl before)
  | wakeNone owes nobody => exact Or.inl (other (sleepsOn_owing _) h)
  | wakeAll owes =>
    have before := other (sleepsOn_owing _) h
    rw [wake_sleepsOn, Bool.and_eq_true_iff] at before
    exact Or.inl before.1
  | spurious sleeps => exact Or.inl (other rfl h)

/-- A wait on `c` ends when `ready` holds, and a section that makes `ready` true issues
`notify_all` under the lock. -/
structure Broadcast (M : Monitor ι σ γ κ ρ) (c : γ) (ready : σ → Prop) : Prop where
  blocked : ∀ k x, (M.sec k).waits = some c → (M.sec k).guard x = false → ¬ ready x
  passes : ∀ k x, (M.sec k).guard x = true → ready ((M.sec k).body x).shared →
    ready x ∨ c ∈ ((M.sec k).body x).broadcast

theorem Broadcast.awake (R : Broadcast M c ready) (h : M.lts.Reaches allow s) :
    ready s.shared → ∀ t, M.sleepsOn c (s.phase t) = false := by
  refine h.invariant (I := fun s => ready s.shared → ∀ t, M.sleepsOn c (s.phase t) = false)
    (fun _ _ => rfl) fun {s a s'} _ ih _ taken now u => ?_
  have m := step_move taken
  rw [Bool.eq_false_iff]
  intro asleep
  rcases m.asleep asleep with before | ⟨k, waits, blocked, same⟩
  · have was : ¬ ready s.shared := fun now => by simp [ih now u] at before
    cases m with
    | @leave t k here ready =>
      rcases R.passes k _ ready now with earlier | cast
      · exact was earlier
      · by_cases same : u = t
        · subst same
          rw [sleepsOn_contending here] at before
          contradiction
        · simp [leave, same, wake_sleepsOn, cast] at asleep
    | _ => exact was now
  · rw [same] at now
    exact R.blocked k _ waits blocked now

def Promised (ns : Notify γ → Prop) (phase : ι → Phase κ γ) : Prop :=
  ∃ u, ∃ n ∈ (phase u).debts, ns n

/-- The notifications that reach whoever sleeps on `c` alone. -/
def Reaching (c : γ) (n : Notify γ) : Prop := n = .one c ∨ n = .all c

section Promised
variable {ns : Notify γ → Prop} {phase : ι → Phase κ γ} {t : ι}

omit [DecidableEq γ] [Fintype ι] in
theorem Promised.update {p : Phase κ γ} (h : Promised ns phase) (none : (phase t).debts = []) :
    Promised ns (Function.update phase t p) := by
  obtain ⟨u, n, owed, meant⟩ := h
  have apart : u ≠ t := by rintro rfl; simp [none] at owed
  exact ⟨u, n, by simpa [apart] using owed, meant⟩

omit [DecidableEq γ] [Fintype ι] in
theorem Promised.paid {n : Notify γ} {rest : List (Notify γ)} (h : Promised ns phase)
    (owes : phase t = .leaving n rest) (other : ¬ ns n) :
    Promised ns (Function.update phase t (.owing rest)) := by
  obtain ⟨u, m, owed, meant⟩ := h
  refine ⟨u, m, ?_, meant⟩
  by_cases same : u = t
  · subst same
    have apart : m ≠ n := by rintro rfl; exact other meant
    simpa [owes, apart] using owed
  · simpa [same] using owed

omit [DecidableEq ι] [Fintype ι] in
theorem Promised.wake (h : Promised ns phase) (cs : List γ) : Promised ns (M.wake cs phase) :=
  h.imp fun u promise => by rwa [wake_debts]

end Promised

/-- Only one thread waits on `c`, its wait ends when `ready` holds, and a section that makes
`ready` true notifies `c`. -/
structure Sole (M : Monitor ι σ γ κ ρ) (c : γ) (ready : σ → Prop) (sole : ι) : Prop where
  starts : ∀ s t k, M.mayStart s t k = true → (M.sec k).waits = some c → t = sole
  blocked : ∀ k x, (M.sec k).waits = some c → (M.sec k).guard x = false → ¬ ready x
  passes : ∀ k x, (M.sec k).guard x = true → ready ((M.sec k).body x).shared → ready x ∨
    .one c ∈ ((M.sec k).body x).owed ∨ .all c ∈ ((M.sec k).body x).owed ∨
    c ∈ ((M.sec k).body x).broadcast

theorem Sole.sleeper (R : Sole M c ready sole) (h : M.lts.Reaches allow s) {t : ι}
    (asleep : M.sleepsOn c (s.phase t) = true) : t = sole := by
  obtain ⟨k, here, waits⟩ := sleepsOn_iff.mp asleep
  have started := carry (I := fun _ _ => True)
    (P := fun _ _ t k => (M.sec k).waits = some c → t = sole) h trivial
    (fun s t k _ may => R.starts s t k may) (fun _ _ _ _ _ _ _ _ _ _ before _ _ => before)
    fun _ _ _ _ _ _ _ _ _ => trivial
  exact started.2 t k (by rw [here]; rfl) waits

/-- While the only waiter sleeps and its predicate holds, a notification is on its way. -/
theorem Sole.promised (R : Sole M c ready sole) (h : M.lts.Reaches allow s) :
    ready s.shared → M.sleepsOn c (s.phase sole) = true → Promised (Reaching c) s.phase := by
  refine h.invariant (I := fun s => ready s.shared → M.sleepsOn c (s.phase sole) = true →
    Promised (Reaching c) s.phase) (fun _ asleep => by simp [lts, sleepsOn] at asleep)
    fun {s a s'} reached ih _ taken now asleep => ?_
  have m := step_move taken
  -- the waiter slept before, or `ready` was false when it went to sleep just now
  rcases m.asleep asleep with before | ⟨k, waits, blocked, same⟩
  case inr =>
    rw [same] at now
    exact absurd now (R.blocked k _ waits blocked)
  cases m with
  | start out may => exact (ih now before).update (by rw [out]; rfl)
  | @leave t k here free =>
    have apart : sole ≠ t := by
      rintro rfl
      rw [sleepsOn_contending here] at before
      contradiction
    have mine : ((M.leave s t k).phase t).debts = ((M.sec k).body s.shared).owed := by simp [leave]
    rcases R.passes k _ free now with earlier | one | all | cast
    · exact ((ih earlier before).wake _).update (by rw [wake_debts, debts_contending here])
    · exact ⟨t, _, by rwa [mine], Or.inl rfl⟩
    · exact ⟨t, _, by rwa [mine], Or.inr rfl⟩
    · simp [leave, apart, wake_sleepsOn, cast] at asleep
  | sleep here blocked waits => exact (ih now before).update (debts_contending here)
  | throws here free fails => exact (ih now before).update (debts_contending here)
  | @wakeOne t v d ns owes sleeps =>
    obtain ⟨k, here, _⟩ := sleepsOn_iff.mp sleeps
    have other : t ≠ v := by rintro rfl; simp [here] at owes
    -- A `notify_one` on `c` would have picked the only waiter.
    have elsewhere : d ≠ c := by
      rintro rfl
      obtain rfl := R.sleeper reached sleeps
      simp [other.symm, here, Phase.rouse, sleepsOn] at asleep
    exact ((ih now before).update (by rw [here]; rfl)).paid (by simpa [other] using owes)
      (by simpa [Reaching] using elsewhere)
  | @wakeNone t d ns owes nobody =>
    have elsewhere : d ≠ c := by
      rintro rfl
      simp [nobody sole] at before
    exact (ih now before).paid owes (by simpa [Reaching] using elsewhere)
  | @wakeAll t d ns owes =>
    have apart : sole ≠ t := by rintro rfl; simp [owes, sleepsOn] at before
    have elsewhere : d ≠ c := by
      rintro rfl
      simp [apart, wake_sleepsOn] at asleep
    exact ((ih now before).wake _).paid ((wake_leaving owes).trans owes)
      (by simpa [Reaching] using elsewhere)
  | spurious sleeps => exact (ih now before).update (by rw [sleeps]; rfl)

theorem Sole.quiet (R : Sole M c ready sole) (h : M.lts.Reaches allow s) (quiet : s.Quiet) {t : ι}
    (asleep : M.sleepsOn c (s.phase t) = true) : ¬ ready s.shared := by
  intro now
  obtain rfl := R.sleeper h asleep
  obtain ⟨u, n, owed, _⟩ := R.promised h now asleep
  simp [settled_debts (quiet u)] at owed

/-- A wait on `c` ends when `ready` holds, and a section that makes `ready` true issues
`notify_all`, under the lock or after it. -/
structure NotifiesAll (M : Monitor ι σ γ κ ρ) (c : γ) (ready : σ → Prop) : Prop where
  blocked : ∀ k x, (M.sec k).waits = some c → (M.sec k).guard x = false → ¬ ready x
  passes : ∀ k x, (M.sec k).guard x = true → ready ((M.sec k).body x).shared →
    ready x ∨ .all c ∈ ((M.sec k).body x).owed ∨ c ∈ ((M.sec k).body x).broadcast

/-- While anybody sleeps on `c` and `ready` holds, a `notify_all` is on its way, whatever calls
were left by an exception. -/
theorem NotifiesAll.promised (R : NotifiesAll M c ready) (h : M.lts.Reaches allow s) :
    ready s.shared → ∀ u, M.sleepsOn c (s.phase u) = true → Promised (· = .all c) s.phase := by
  refine h.invariant (I := fun s => ready s.shared → ∀ u, M.sleepsOn c (s.phase u) = true →
    Promised (· = .all c) s.phase) (fun _ u asleep => by simp [lts, sleepsOn] at asleep)
    fun {s a s'} _ ih _ taken now u asleep => ?_
  have m := step_move taken
  rcases m.asleep asleep with before | ⟨k, waits, blocked, same⟩
  case inr =>
    rw [same] at now
    exact absurd now (R.blocked k _ waits blocked)
  cases m with
  | start out may => exact (ih now u before).update (by rw [out]; rfl)
  | @leave t k here free =>
    have apart : u ≠ t := by
      rintro rfl
      rw [sleepsOn_contending here] at before
      contradiction
    rcases R.passes k _ free now with earlier | all | cast
    · exact ((ih earlier u before).wake _).update (by rw [wake_debts, debts_contending here])
    · exact ⟨t, _, by simpa [leave] using all, rfl⟩
    · simp [leave, apart, wake_sleepsOn, cast] at asleep
  | sleep here blocked waits => exact (ih now u before).update (debts_contending here)
  | throws here free fails => exact (ih now u before).update (debts_contending here)
  | @wakeOne t v d ns owes sleeps =>
    obtain ⟨k, here, _⟩ := sleepsOn_iff.mp sleeps
    have other : t ≠ v := by rintro rfl; simp [here] at owes
    exact ((ih now u before).update (by rw [here]; rfl)).paid (by simpa [other] using owes) (by simp)
  | wakeNone owes nobody => exact (ih now u before).paid owes (by simp)
  | @wakeAll t d ns owes =>
    have apart : u ≠ t := by rintro rfl; simp [owes, sleepsOn] at before
    have elsewhere : d ≠ c := by
      rintro rfl
      simp [apart, wake_sleepsOn] at asleep
    exact ((ih now u before).wake _).paid ((wake_leaving owes).trans owes) (by simpa using elsewhere)
  | spurious sleeps => exact (ih now u before).update (by rw [sleeps]; rfl)

theorem NotifiesAll.quiet (R : NotifiesAll M c ready) (h : M.lts.Reaches allow s) (quiet : s.Quiet)
    (now : ready s.shared) (t : ι) : M.sleepsOn c (s.phase t) = false := by
  rw [Bool.eq_false_iff]
  intro asleep
  obtain ⟨u, n, owed, _⟩ := R.promised h now t asleep
  simp [settled_debts (quiet u)] at owed

end Announced

/-! ### Threads that can always go on -/

section Progress
variable [DecidableEq ι] [Fintype ι] {allow : State ι σ γ κ ρ → Act ι κ → Prop}

theorem notify_enabled {t : ι} {n : Notify γ} {ns : List (Notify γ)}
    (owes : s.phase t = .leaving n ns) : ∃ wakes s', M.step s (.notify t wakes) = some s' := by
  cases n with
  | one c =>
    by_cases nobody : ∀ u, M.sleepsOn c (s.phase u) = false
    · exact ⟨none, by simp [step, owes, issue, nobody]⟩
    · obtain ⟨u, sleeps⟩ := not_forall.mp nobody
      exact ⟨some u, by simp [step, owes, issue, Bool.eq_true_of_not_eq_false sleeps]⟩
  | all c => exact ⟨none, by simp [step, owes, issue]⟩

theorem enter_enabled {t : ι} {k : κ} (here : (s.phase t).contending = some k)
    (free : (M.sec k).guard s.shared = true ∨ (M.sec k).waits.isSome = true) :
    ∃ s', M.step s (.enter t) = some s' := by
  by_cases ready : (M.sec k).guard s.shared = true
  · exact ⟨M.leave s t k, by simp [step, here, ready]⟩
  · exact ⟨{ s with phase := Function.update s.phase t (.asleep k) },
      by simp [step, here, ready, free.resolve_left ready]⟩

theorem waiting_waits (h : M.lts.Reaches allow s) :
    ∀ t k, (s.phase t).waiting = some k → (M.sec k).waits.isSome = true := by
  refine h.invariant (I := fun s => ∀ t k, (s.phase t).waiting = some k → (M.sec k).waits.isSome = true)
    (fun t k waiting => by simp [lts, Phase.waiting] at waiting) fun {s a s'} _ ih _ taken => ?_
  have update : ∀ {phase : ι → Phase κ γ} {t : ι} {p : Phase κ γ},
      (∀ u k, (phase u).waiting = some k → (M.sec k).waits.isSome = true) →
      (∀ k, p.waiting = some k → (M.sec k).waits.isSome = true) →
      ∀ u k, (Function.update phase t p u).waiting = some k → (M.sec k).waits.isSome = true := by
    intro phase t p rest here u k waiting
    by_cases same : u = t
    · subst same
      exact here k (by simpa using waiting)
    · exact rest u k (by simpa [same] using waiting)
  have owing : ∀ ns k, (Phase.owing ns : Phase κ γ).waiting = some k → (M.sec k).waits.isSome = true := by
    intro ns k waiting
    cases ns <;> simp [Phase.owing, Phase.waiting] at waiting
  have wake : ∀ cs u k, (M.wake cs s.phase u).waiting = some k → (M.sec k).waits.isSome = true :=
    fun cs u k waiting => ih u k (by rwa [wake_waiting] at waiting)
  cases step_move taken with
  | start out may => exact update ih (by simp [Phase.waiting])
  | leave here ready => exact update (wake _) (owing _)
  | @sleep t k c here blocked waits =>
    apply update ih
    intro l same
    obtain rfl := Option.some.inj same
    simp [waits]
  | throws here ready fails => exact update ih (by simp [Phase.waiting])
  | wakeOne owes sleeps =>
    obtain ⟨k, asleep, waits⟩ := sleepsOn_iff.mp sleeps
    refine update (update ih fun l same => ?_) (owing _)
    rw [asleep] at same
    obtain rfl := Option.some.inj same
    simp [waits]
  | wakeNone owes nobody => exact update ih (owing _)
  | wakeAll owes => exact update (wake _) (owing _)
  | @spurious t k sleeps =>
    refine update ih fun l same => ih t l ?_
    rw [sleeps]
    exact same

theorem stuck_of_outside (out : ∀ t, s.phase t = .outside) (none : ∀ t k, M.mayStart s t k = false) :
    M.Stuck s := by
  intro a real
  cases a with
  | start t k => simp [step, none]
  | enter t | throws t => simp [step, out, Phase.contending]
  | notify t wakes => simp [step, out]
  | spurious t => simp [Act.isSpurious] at real

/-- A thread that can go no further is outside, asleep, or at a lock it cannot pass without a
condition variable to wait on. -/
theorem rest_cases {t : ι} (enter : M.step s (.enter t) = none)
    (notify : ∀ wakes, M.step s (.notify t wakes) = none) :
    s.phase t = .outside ∨ (∃ k, s.phase t = .asleep k) ∨
    ∃ k, (s.phase t).contending = some k ∧ (M.sec k).guard s.shared = false ∧
      (M.sec k).waits = none := by
  have blocked : ∀ k, (s.phase t).contending = some k →
      (M.sec k).guard s.shared = false ∧ (M.sec k).waits = none := by
    intro k here
    by_contra free
    have enabled : (M.sec k).guard s.shared = true ∨ (M.sec k).waits.isSome = true := by
      cases e : (M.sec k).waits <;> simp_all
    obtain ⟨s', taken⟩ := enter_enabled here enabled
    exact absurd (taken.symm.trans enter) (by simp)
  cases here : s.phase t with
  | outside => exact Or.inl rfl
  | asleep k => exact Or.inr (Or.inl ⟨k, rfl⟩)
  | entering k => exact Or.inr (Or.inr ⟨k, rfl, blocked k (by rw [here]; rfl)⟩)
  | woken k => exact Or.inr (Or.inr ⟨k, rfl, blocked k (by rw [here]; rfl)⟩)
  | leaving n ns =>
    obtain ⟨wakes, s', taken⟩ := notify_enabled here
    exact absurd (taken.symm.trans (notify wakes)) (by simp)

theorem start_refused {t : ι} {k : κ} (out : s.phase t = .outside)
    (start : M.step s (.start t k) = none) : M.mayStart s t k = false := by
  simpa [step, out, Phase.isOutside] using start

end Progress
end Celestite.Concurrency.Monitor
