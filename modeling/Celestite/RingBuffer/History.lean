import Celestite.RingBuffer.Refinement

/-!
# What a buffer has seen

A buffer holds the end of what was put into it, and what it holds stays where it is.
-/

namespace Celestite.RingBuffer
open Concurrency Cyclic

variable {T : Type} {rb rb' : RingBuffer T} {xs ys : List T} {c : Call T} {cs : List (Call T)} {r : Reply}
  {max i j : ℕ}

/-- The elements that the call constructs in the buffer. -/
def Call.added : Call T → Reply → List T
  | .push v, .pushed true => [v]
  | .pushOverwrite v, _ | .emplace v, _ => [v]
  | _, _ => []

/-- All that the calls construct. -/
def accepted : RingBuffer T → List (Call T) → List T
  | _, [] => []
  | rb, c :: cs =>
    match perform rb c with
    | some (r, rb') => c.added r ++ accepted rb' cs
    | none => []

def nextDown : ℕ → Option ℕ
  | 0 => none
  | i + 1 => some i

/-- The index after the call of the element that had the index `i`, none if it is destroyed. -/
def follow (rb : RingBuffer T) (i : ℕ) : Call T → Option ℕ
  | .pop => nextDown i
  | .popBack => if i + 1 = rb.count then none else some i
  | .pushOverwrite _ | .emplace _ => if rb.count = rb.max then nextDown i else some i
  | _ => some i

def followAll : RingBuffer T → List (Call T) → ℕ → Option ℕ
  | _, [], i => some i
  | rb, c :: cs, i => do
    let (_, rb') ← perform rb c
    let j ← follow rb i c
    followAll rb' cs j

/-! ### One call on a list -/

theorem overwrite_suffix (xs : List T) (v : T) : overwrite max xs v <:+ xs ++ [v] := by
  unfold overwrite
  split
  · obtain ⟨front, eq⟩ := List.tail_suffix xs
    exact ⟨front, by rw [← List.append_assoc, eq]⟩
  · exact List.suffix_refl _

theorem length_overwrite (length : xs.length ≤ max) (pos : 1 ≤ max) (v : T) :
    (overwrite max xs v).length = min max (xs.length + 1) := by
  unfold overwrite
  split
  · rw [List.length_append, List.length_tail, List.length_singleton]
    omega
  · rw [List.length_append, List.length_singleton]
    omega

theorem overwrite_room (room : xs.length ≠ max) (v : T) : overwrite max xs v = xs ++ [v] := by
  rw [overwrite, if_neg room]

theorem bounded_cases (done : bounded max xs c = some (r, ys)) :
    ys = xs ∧ c.added r = [] ∨ (∃ v, ys = overwrite max xs v ∧ c.added r = [v]) ∨
    (c = .pop ∧ ys = xs.tail ∧ c.added r = []) ∨ c = .popBack ∧ ys = xs.dropLast ∧ c.added r = [] := by
  cases c with
  | push v =>
    by_cases full : xs.length = max
    · simp only [bounded, if_pos full, Option.some.injEq, Prod.mk.injEq] at done
      obtain ⟨rfl, rfl⟩ := done
      exact .inl ⟨rfl, rfl⟩
    · simp only [bounded, if_neg full, Option.some.injEq, Prod.mk.injEq] at done
      obtain ⟨rfl, rfl⟩ := done
      exact .inr (.inl ⟨v, (overwrite_room full v).symm, rfl⟩)
  | pushOverwrite v | emplace v =>
    obtain ⟨rfl, rfl⟩ := Prod.mk.inj (Option.some.inj done)
    exact .inr (.inl ⟨v, rfl, rfl⟩)
  | pop =>
    simp only [bounded, Option.ite_none_left_eq_some, Option.some.injEq, Prod.mk.injEq] at done
    obtain ⟨-, rfl, rfl⟩ := done
    exact .inr (.inr (.inl ⟨rfl, rfl, rfl⟩))
  | popBack =>
    simp only [bounded, Option.ite_none_left_eq_some, Option.some.injEq, Prod.mk.injEq] at done
    obtain ⟨-, rfl, rfl⟩ := done
    exact .inr (.inr (.inr ⟨rfl, rfl, rfl⟩))
  | get i =>
    simp only [bounded, Option.ite_none_right_eq_some, Option.some.injEq, Prod.mk.injEq] at done
    exact .inl ⟨done.2.2.symm, rfl⟩
  | front | back =>
    simp only [bounded, Option.ite_none_left_eq_some, Option.some.injEq, Prod.mk.injEq] at done
    exact .inl ⟨done.2.2.symm, rfl⟩
  | getAt i | size =>
    obtain ⟨-, rfl⟩ := Prod.mk.inj (Option.some.inj done)
    exact .inl ⟨rfl, rfl⟩

theorem bounded_suffix (done : bounded max xs c = some (r, ys)) (kept : c ≠ .popBack) :
    ys <:+ xs ++ c.added r := by
  rcases bounded_cases done with ⟨rfl, added⟩ | ⟨v, rfl, added⟩ | ⟨-, rfl, added⟩ | ⟨rfl, -⟩
  · exact ⟨[], by rw [added, List.append_nil, List.nil_append]⟩
  · rw [added]
    exact overwrite_suffix xs v
  · rw [added, List.append_nil]
    exact List.tail_suffix xs
  · exact absurd rfl kept

theorem bounded_sublist (done : bounded max xs c = some (r, ys)) : ys.Sublist (xs ++ c.added r) := by
  by_cases last : c = .popBack
  · rcases bounded_cases done with ⟨rfl, -⟩ | ⟨v, -, added⟩ | ⟨rfl, -⟩ | ⟨-, rfl, -⟩
    · exact List.sublist_append_left _ _
    · exact nomatch (last ▸ added : (Call.popBack : Call T).added r = [v])
    · exact nomatch last
    · exact (List.dropLast_sublist xs).trans (List.sublist_append_left _ _)
  · exact (bounded_suffix done last).sublist

theorem bounded_length (done : bounded max xs c = some (r, ys)) (length : xs.length ≤ max) (pos : 1 ≤ max)
    (stays : c ≠ .pop ∧ c ≠ .popBack) : ys.length = min max (xs.length + (c.added r).length) := by
  rcases bounded_cases done with ⟨rfl, added⟩ | ⟨v, rfl, added⟩ | ⟨rfl, -⟩ | ⟨rfl, -⟩
  · rw [added, List.length_nil]
    omega
  · rw [added, length_overwrite length pos, List.length_singleton]
  · exact absurd rfl stays.1
  · exact absurd rfl stays.2

/-! ### Runs -/

theorem run_cons (ran : (lts T max).run Allowed rb (c :: cs) = some rb') :
    Allowed rb c ∧ ∃ r mid, perform rb c = some (r, mid) ∧ (lts T max).run Allowed mid cs = some rb' := by
  rw [Lts.run] at ran
  split at ran
  · rename_i allowed
    obtain ⟨mid, taken, rest⟩ := Option.bind_eq_some_iff.mp ran
    obtain ⟨⟨r, mid'⟩, performed, rfl⟩ := Option.map_eq_some_iff.mp taken
    exact ⟨allowed, r, mid', performed, rest⟩
  · contradiction

/-- What a call does to the list that the buffer holds. -/
theorem Represents.performed (h : Represents rb xs) (allowed : Allowed rb c) (done : perform rb c = some (r, rb')) :
    ∃ ys, Represents rb' ys ∧ rb'.max = rb.max ∧ ∃ r', bounded rb.max xs c = some (r', ys) ∧
      c.added r' = c.added r := by
  obtain ⟨r', ys, next, list, performed, after, same⟩ := h.simulates allowed
  obtain ⟨rfl, rfl⟩ := Prod.mk.inj (Option.some.inj (performed.symm.trans done))
  refine ⟨ys, after, same, r', list, ?_⟩
  cases r' <;> cases c <;> rfl

theorem accepted_cons {mid : RingBuffer T} (done : perform rb c = some (r, mid)) :
    accepted rb (c :: cs) = c.added r ++ accepted mid cs := by
  rw [accepted, done]

theorem Represents.run_sublist (h : Represents rb xs) (ran : (lts T max).run Allowed rb cs = some rb') :
    ∃ ys, Represents rb' ys ∧ rb'.max = rb.max ∧ ys.Sublist (xs ++ accepted rb cs) := by
  induction cs generalizing rb xs with
  | nil =>
    obtain rfl := Option.some.inj ran
    exact ⟨xs, h, rfl, List.sublist_append_left _ _⟩
  | cons c cs ih =>
    obtain ⟨allowed, r, mid, done, rest⟩ := run_cons ran
    obtain ⟨zs, after, same, r', list, added⟩ := h.performed allowed done
    obtain ⟨ys, final, same', sublist⟩ := ih after rest
    have first := bounded_sublist list
    rw [added] at first
    refine ⟨ys, final, same'.trans same, sublist.trans ?_⟩
    rw [accepted_cons done, ← List.append_assoc]
    exact first.append_right _

theorem Represents.run_suffix (h : Represents rb xs) (ran : (lts T max).run Allowed rb cs = some rb')
    (kept : ∀ c ∈ cs, c ≠ .popBack) : ∃ ys, Represents rb' ys ∧ ys <:+ xs ++ accepted rb cs := by
  induction cs generalizing rb xs with
  | nil =>
    obtain rfl := Option.some.inj ran
    exact ⟨xs, h, (List.append_nil xs).symm ▸ List.suffix_refl xs⟩
  | cons c cs ih =>
    obtain ⟨allowed, r, mid, done, rest⟩ := run_cons ran
    obtain ⟨zs, after, -, r', list, added⟩ := h.performed allowed done
    obtain ⟨ys, final, suffix⟩ := ih after rest fun c' later => kept c' (List.mem_cons_of_mem _ later)
    obtain ⟨dropped, first⟩ := bounded_suffix list (kept c List.mem_cons_self)
    refine ⟨ys, final, suffix.trans ⟨dropped, ?_⟩⟩
    rw [accepted_cons done, ← List.append_assoc, first, added, List.append_assoc]

theorem Represents.run_length (h : Represents rb xs) (ran : (lts T max).run Allowed rb cs = some rb')
    (stays : ∀ c ∈ cs, c ≠ .pop ∧ c ≠ .popBack) :
    rb'.count = min rb.max (xs.length + (accepted rb cs).length) := by
  induction cs generalizing rb xs with
  | nil =>
    obtain rfl := Option.some.inj ran
    have length := h.length
    rw [accepted, h.count, List.length_nil]
    omega
  | cons c cs ih =>
    obtain ⟨allowed, r, mid, done, rest⟩ := run_cons ran
    obtain ⟨zs, after, same, r', list, added⟩ := h.performed allowed done
    have others := ih after rest fun c' later => stays c' (List.mem_cons_of_mem _ later)
    have first := bounded_length list h.length h.pos (stays c List.mem_cons_self)
    rw [added] at first
    rw [others, accepted_cons done, first, same, List.length_append]
    omega

/-- After any run from any reachable state the buffer holds elements in the order in which they were put in; without
`pop_back` the latest ones, and without `pop` as many as there is room for. -/
theorem holds_latest {m : ℕ} (pos : 1 ≤ m) (granted : m ≤ allocatorLimit)
    (reached : (lts T m).Reaches Allowed rb) (ran : (lts T m).run Allowed rb cs = some rb') :
    rb'.contents.Sublist (rb.contents ++ accepted rb cs) ∧
    ((∀ c ∈ cs, c ≠ .popBack) → rb'.contents = (rb.contents ++ accepted rb cs).drop
      ((rb.contents ++ accepted rb cs).length - rb'.count)) ∧
    ((∀ c ∈ cs, c ≠ .pop ∧ c ≠ .popBack) → rb'.count = min m (rb.count + (accepted rb cs).length)) := by
  obtain ⟨h, same⟩ := represents pos granted reached
  refine ⟨?_, ?_, ?_⟩
  · obtain ⟨ys, after, -, sublist⟩ := h.run_sublist ran
    rwa [after.contents_eq]
  · intro kept
    obtain ⟨ys, after, suffix⟩ := h.run_suffix ran kept
    rw [after.contents_eq, after.count]
    exact List.suffix_iff_eq_drop.mp suffix
  · intro stays
    rw [h.run_length ran stays, same, h.count]

/-- One value is refused, one taken and one dropped, in two slots. -/
def twoSlots : List (Call ℕ) :=
  [.push 1, .push 2, .push 3, .emplace 4, .pop, .pushOverwrite 5, .emplace 6]

theorem holds_latest_two : ∃ rb, (lts ℕ 2).run Allowed { max := 2 } twoSlots = some rb ∧ rb.contents = [5, 6] := by
  obtain ⟨rb, ran, count⟩ : ∃ rb, (lts ℕ 2).run Allowed { max := 2 } twoSlots = some rb ∧ rb.count = 2 :=
    ⟨_, rfl, rfl⟩
  have kept := (holds_latest (by omega) (by unfold allocatorLimit; omega) .init ran).2.1 (by simp [twoSlots])
  rw [count] at kept
  exact ⟨rb, ran, kept⟩

/-! ### Places -/

theorem room_first (h : Represents rb xs) {mid : RingBuffer T} (made : popIfFull rb = .ok () mid) :
    mid.first = if rb.count = rb.max then place rb.first rb.max 1 else rb.first := by
  simp only [popIfFull, Program.bind_run, Program.read_run, id] at made
  by_cases full : rb.count = rb.max
  · obtain ⟨x, rest, rfl⟩ := List.exists_cons_of_length_pos (h.full_iff.mp full ▸ h.pos)
    rw [if_pos full, h.pop_run] at made
    obtain ⟨-, rfl⟩ := Outcome.ok.inj made
    rw [if_pos full]
    exact congrArg (· % rb.max) (h.wrap_first_add h.pos)
  · rw [if_neg full] at made
    obtain ⟨-, rfl⟩ := Outcome.ok.inj made
    rw [if_neg full]

theorem overwrite_first (h : Represents rb xs) {v : T} (run : pushOverwrite (plain v) rb = .ok () rb') :
    rb'.first = if rb.count = rb.max then place rb.first rb.max 1 else rb.first := by
  obtain ⟨mid, ys, made, rest, room, -⟩ := h.room_run
  have filled := rest.fill_run room v
  simp only [pushOverwrite, pushOverwriteImpl, Program.bind_ok made, Program.bind_ok rest.endSlot_run,
    Program.bind_ok filled, incrementCount, Program.update_run] at run
  obtain ⟨-, rfl⟩ := Outcome.ok.inj run
  have first := room_first h made
  exact first

theorem nextDown_some (down : nextDown i = some j) : i = j + 1 := by
  cases i with
  | zero => contradiction
  | succ i => exact congrArg Nat.succ (Option.some.inj down)

theorem performed_kept (kept : (call c).Preserves RingBuffer.first) (done : perform rb c = some (r, rb')) :
    rb'.first = rb.first := by
  unfold perform at done
  cases run : call c rb with
  | ok r' next =>
    rw [run] at done
    obtain ⟨-, rfl⟩ := Prod.mk.inj (Option.some.inj done)
    exact kept.of_ok run
  | threw e next =>
    rw [run] at done
    cases e with
    | outOfRange =>
      obtain ⟨-, rfl⟩ := Prod.mk.inj (Option.some.inj done)
      exact kept.of_threw run
    | element => contradiction
  | undefined fault =>
    rw [run] at done
    contradiction

section
open Program.Preserves

theorem modMax_kept (n : ℕ) : (modMax n : Op T ℕ).Preserves RingBuffer.first :=
  bind (read _) fun _ => bind (require _ _) fun _ => pure _

theorem endSlot_kept : (endSlot : Op T ℕ).Preserves RingBuffer.first := bind (read _) fun _ => modMax_kept _

theorem construct_kept (i : ℕ) (v : T) : (construct i (plain v)).Preserves RingBuffer.first :=
  bind (read _) fun _ => bind (require _ _) fun _ => bind (require _ _) fun _ => update fun _ => rfl

theorem push_kept (v : T) : (push (plain v)).Preserves RingBuffer.first := by
  refine bind (read _) fun rb => ?_
  split
  · exact pure _
  · exact bind endSlot_kept fun _ => bind (construct_kept _ v) fun _ => bind (update fun _ => rfl) fun _ => pure _

theorem popBack_kept : (popBack : Op T Unit).Preserves RingBuffer.first :=
  bind (read _) fun _ => bind (modMax_kept _) fun _ => bind (bind (read _) fun _ => bind (require _ _) fun _ =>
    bind (require _ _) fun _ => update fun _ => rfl) fun _ => update fun _ => rfl

theorem get_kept (i : ℕ) : (get i : Op T ℕ).Preserves RingBuffer.first := bind (read _) fun _ => modMax_kept _

theorem getAt_kept (i : ℕ) : (getAt i : Op T ℕ).Preserves RingBuffer.first := by
  refine bind (read _) fun rb => ?_
  split
  · exact throw _
  · exact get_kept i

end

/-- Where the first element is after the call. -/
def firstAfter (rb : RingBuffer T) : Call T → ℕ
  | .pop => place rb.first rb.max 1
  | .pushOverwrite _ | .emplace _ => if rb.count = rb.max then place rb.first rb.max 1 else rb.first
  | _ => rb.first

theorem perform_first (h : Represents rb xs) (allowed : Allowed rb c) (done : perform rb c = some (r, rb')) :
    rb'.first = firstAfter rb c := by
  cases c with
  | push v => exact performed_kept (c := .push v) (.bind (push_kept v) fun _ => .pure _) done
  | pushOverwrite v =>
    obtain ⟨next, -, run, -⟩ := h.emplace_run v
    have performed : perform rb (.pushOverwrite v) = some (.done, next) := by simp [perform, call, run]
    obtain ⟨-, rfl⟩ := Prod.mk.inj (Option.some.inj (done.symm.trans performed))
    exact overwrite_first h run
  | emplace v =>
    obtain ⟨next, made, run, -⟩ := h.emplace_run v
    simp only [perform, call, Program.bind_ok made] at done
    obtain ⟨-, rfl⟩ := Prod.mk.inj (Option.some.inj done)
    exact overwrite_first h run
  | pop =>
    obtain ⟨x, rest, rfl⟩ := List.exists_cons_of_ne_nil (h.held_iff.mp allowed)
    simp only [perform, call, Program.bind_ok h.pop_run] at done
    obtain ⟨-, rfl⟩ := Prod.mk.inj (Option.some.inj done)
    exact congrArg (· % rb.max) (h.wrap_first_add h.pos)
  | popBack => exact performed_kept (.bind popBack_kept fun _ => .pure _) done
  | get k => exact performed_kept (.bind (get_kept k) fun _ => .pure _) done
  | getAt k => exact performed_kept (.bind (getAt_kept k) fun _ => .pure _) done
  | front => exact performed_kept (.bind (get_kept 0) fun _ => .pure _) done
  | back => exact performed_kept (.bind (.bind (.read _) fun _ => get_kept _) fun _ => .pure _) done
  | size =>
    have kept : (size : Op T ℕ).Preserves RingBuffer.first := .read _
    exact performed_kept (c := .size) (.bind kept fun _ => .pure _) done

theorem overwrite_follow {v : T} (inside : i < xs.length)
    (followed : (if xs.length = max then nextDown i else some i) = some j) :
    j < (overwrite max xs v).length ∧ (overwrite max xs v)[j]? = xs[i]? := by
  unfold overwrite
  split_ifs at followed ⊢ with full
  · obtain rfl := nextDown_some followed
    rw [List.length_append, List.length_tail, List.getElem?_append_left (by rw [List.length_tail]; omega),
      List.getElem?_tail]
    exact ⟨by omega, rfl⟩
  · obtain rfl := Option.some.inj followed
    rw [List.length_append, List.getElem?_append_left inside]
    exact ⟨by omega, rfl⟩

/-- What a call leaves of an element that it does not destroy. -/
theorem follow_bounded (count : rb.count = xs.length) (list : bounded rb.max xs c = some (r, ys))
    (inside : i < xs.length) (followed : follow rb i c = some j) : j < ys.length ∧ ys[j]? = xs[i]? := by
  have unmoved (same : ys = xs) (here : i = j) : j < ys.length ∧ ys[j]? = xs[i]? := by
    rw [same, ← here]
    exact ⟨inside, rfl⟩
  cases c with
  | push v =>
    obtain rfl := Option.some.inj followed
    by_cases full : xs.length = rb.max
    · simp only [bounded, if_pos full, Option.some.injEq, Prod.mk.injEq] at list
      exact unmoved list.2.symm rfl
    · simp only [bounded, if_neg full, Option.some.injEq, Prod.mk.injEq] at list
      obtain ⟨-, rfl⟩ := list
      rw [List.length_append, List.getElem?_append_left inside]
      exact ⟨by omega, rfl⟩
  | pushOverwrite v | emplace v =>
    obtain ⟨-, rfl⟩ := Prod.mk.inj (Option.some.inj list)
    exact overwrite_follow inside (count ▸ followed)
  | pop =>
    simp only [bounded, Option.ite_none_left_eq_some, Option.some.injEq, Prod.mk.injEq] at list
    obtain ⟨-, -, rfl⟩ := list
    obtain rfl := nextDown_some followed
    rw [List.length_tail, List.getElem?_tail]
    exact ⟨by omega, rfl⟩
  | popBack =>
    simp only [bounded, Option.ite_none_left_eq_some, Option.some.injEq, Prod.mk.injEq] at list
    simp only [follow, Option.ite_none_left_eq_some, Option.some.injEq] at followed
    obtain ⟨-, -, rfl⟩ := list
    obtain ⟨apart, rfl⟩ := followed
    rw [List.length_dropLast, List.getElem?_dropLast, if_pos (by omega)]
    exact ⟨by omega, rfl⟩
  | get k =>
    simp only [bounded, Option.ite_none_right_eq_some, Option.some.injEq, Prod.mk.injEq] at list
    exact unmoved list.2.2.symm (Option.some.inj followed)
  | front | back =>
    simp only [bounded, Option.ite_none_left_eq_some, Option.some.injEq, Prod.mk.injEq] at list
    exact unmoved list.2.2.symm (Option.some.inj followed)
  | getAt k | size => exact unmoved (Prod.mk.inj (Option.some.inj list)).2.symm (Option.some.inj followed)

theorem place_nextDown (down : nextDown i = some j) (first : rb'.first = place rb.first rb.max 1) :
    place rb'.first rb.max j = place rb.first rb.max i := by
  obtain rfl := nextDown_some down
  rw [first]
  exact place_succ

theorem follow_place (h : Represents rb xs) (allowed : Allowed rb c) (done : perform rb c = some (r, rb'))
    (followed : follow rb i c = some j) : place rb'.first rb.max j = place rb.first rb.max i := by
  have first := perform_first h allowed done
  have unmoved (same : rb'.first = rb.first) (here : i = j) :
      place rb'.first rb.max j = place rb.first rb.max i := by rw [same, here]
  cases c with
  | pop => exact place_nextDown followed first
  | popBack =>
    simp only [follow, Option.ite_none_left_eq_some, Option.some.injEq] at followed
    exact unmoved first followed.2
  | pushOverwrite v | emplace v =>
    simp only [firstAfter, follow] at first followed
    split_ifs at first followed
    · exact place_nextDown followed first
    · exact unmoved first (Option.some.inj followed)
  | _ => exact unmoved first (Option.some.inj followed)

theorem Represents.run_follow (h : Represents rb xs) (ran : (lts T max).run Allowed rb cs = some rb')
    (inside : i < xs.length) (followed : followAll rb cs i = some j) :
    ∃ ys, Represents rb' ys ∧ rb'.max = rb.max ∧ j < ys.length ∧ ys[j]? = xs[i]? ∧
      place rb'.first rb.max j = place rb.first rb.max i := by
  induction cs generalizing rb xs i with
  | nil =>
    obtain rfl := Option.some.inj ran
    obtain rfl := Option.some.inj followed
    exact ⟨xs, h, rfl, inside, rfl, rfl⟩
  | cons c cs ih =>
    obtain ⟨allowed, r, mid, done, rest⟩ := run_cons ran
    have unrolled : (follow rb i c).bind (followAll mid cs) = some j := by
      rw [followAll, done] at followed
      exact followed
    obtain ⟨k, step, others⟩ := Option.bind_eq_some_iff.mp unrolled
    obtain ⟨zs, after, same, r', list, -⟩ := h.performed allowed done
    obtain ⟨inside', value⟩ := follow_bounded h.count list inside step
    have here := follow_place h allowed done step
    obtain ⟨ys, final, same', within, value', there⟩ := ih after rest inside' others
    rw [same] at there
    exact ⟨ys, final, same'.trans same, within, value'.trans value, there.trans here⟩

/-- An element stays in its slot, and keeps its value, for as long as it is in the buffer, so a reference to it
can be used until then. -/
theorem references_stay {m : ℕ} (pos : 1 ≤ m) (granted : m ≤ allocatorLimit)
    (reached : (lts T m).Reaches Allowed rb) (ran : (lts T m).run Allowed rb cs = some rb')
    (inside : i < rb.count) (followed : followAll rb cs i = some j) :
    j < rb'.count ∧ (rb'.first + j) % m = (rb.first + i) % m ∧
      rb'.slots ((rb.first + i) % m) = rb.slots ((rb.first + i) % m) := by
  obtain ⟨h, rfl⟩ := represents pos granted reached
  have length := h.length
  obtain ⟨ys, after, same, within, value, there⟩ := h.run_follow ran (h.count ▸ inside) followed
  have old := h.slots i ((h.count ▸ inside).trans_le length)
  have new := after.slots j (within.trans_le after.length)
  rw [same, there, value] at new
  exact ⟨after.count ▸ within, there, new.trans old.symm⟩

/-- The second of two elements, when the first one is dropped for a third. -/
theorem references_stay_second : ∃ rb rb', (lts ℕ 2).run Allowed { max := 2 } [.push 1, .push 2] = some rb ∧
    (lts ℕ 2).run Allowed rb [.emplace 3] = some rb' ∧ rb'.slots 1 = some 2 := by
  obtain ⟨rb, rb', made, ran, first, held, value, followed⟩ : ∃ rb rb',
      (lts ℕ 2).run Allowed (lts ℕ 2).init [.push 1, .push 2] = some rb ∧
      (lts ℕ 2).run Allowed rb [.emplace 3] = some rb' ∧ rb.first = 0 ∧ rb.count = 2 ∧
      rb.slots 1 = some 2 ∧ followAll rb [.emplace 3] 1 = some 0 :=
    ⟨_, _, rfl, rfl, rfl, rfl, rfl, rfl⟩
  have stays := references_stay (by omega) (by unfold allocatorLimit; omega) (Lts.run_reaches _ .init made) ran
    (i := 1) (by omega) followed
  rw [first] at stays
  exact ⟨rb, rb', made, ran, stays.2.2.trans value⟩

end Celestite.RingBuffer
