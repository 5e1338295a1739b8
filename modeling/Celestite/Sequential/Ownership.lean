import Mathlib.Data.Fintype.Basic
import Mathlib.Data.Finset.Card
import Mathlib.Logic.Function.Basic

/-!
# Owners of resources

Each owner holds at most one resource, known by its key. `Owned` says that each resource acquired
has one holder until it is released, and none afterwards; a resource may be acquired again.
-/

namespace Celestite.Sequential

/-- An acquisition or a release of the resource with a key. -/
inductive Use (K : Type*) where
  | acquired (k : K)
  | released (k : K)
  deriving DecidableEq

def Use.key {K : Type*} : Use K → K
  | acquired k | released k => k

variable {O X K A : Type*}

/-- What the objects of a population hold. -/
def holding (key : X → Option K) (objects : O → Option X) (o : O) : Option K := (objects o).bind key

/-- What is there after an update is new or was there before. -/
theorem update_cases [DecidableEq O] {objects : O → Option X} {o o' : O} {x : Option X} {y : X}
    (there : Function.update objects o x o' = some y) : (o' = o ∧ x = some y) ∨ (o' ≠ o ∧ objects o' = some y) := by
  by_cases same : o' = o
  · rw [same, Function.update_self] at there
    exact .inl ⟨same, there⟩
  · rw [Function.update_of_ne same] at there
    exact .inr ⟨same, there⟩

section
variable [DecidableEq K] {holds : O → Option K} {log p : List (Use K)} {e : Use K} {o o' : O} {k k' : K}
  {r : Option K}

def acquisitions (log : List (Use K)) (k : K) : ℕ := log.count (.acquired k)

def releases (log : List (Use K)) (k : K) : ℕ := log.count (.released k)

/-- Whether the resource is yet to be released. -/
def Live (log : List (Use K)) (k : K) : Prop := releases log k < acquisitions log k

instance (log : List (Use K)) (k : K) : Decidable (Live log k) :=
  inferInstanceAs (Decidable (releases log k < acquisitions log k))

@[simp] theorem acquisitions_acquired :
    acquisitions (log ++ [.acquired k']) k = acquisitions log k + if k' = k then 1 else 0 := by
  simp [acquisitions, List.count_append, List.count_singleton]

@[simp] theorem acquisitions_released : acquisitions (log ++ [.released k']) k = acquisitions log k := by
  simp [acquisitions, List.count_append]

@[simp] theorem releases_released :
    releases (log ++ [.released k']) k = releases log k + if k' = k then 1 else 0 := by
  simp [releases, List.count_append, List.count_singleton]

@[simp] theorem releases_acquired : releases (log ++ [.acquired k']) k = releases log k := by
  simp [releases, List.count_append]

theorem mem_of_live (live : Live log k) : k ∈ log.map Use.key := by
  have member := List.count_pos_iff.mp (Nat.zero_lt_of_lt live)
  exact List.mem_map_of_mem (f := Use.key) member

section
variable [Fintype O]

def holders (holds : O → Option K) (k : K) : Finset O := Finset.univ.filter fun o => holds o = some k

theorem mem_holders : o ∈ holders holds k ↔ holds o = some k := by simp [holders]

theorem not_mem_of_none (free : holds o = none) : o ∉ holders holds k := by simp [mem_holders, free]

/-- The resources that are yet to be released are those held, each by as many as acquired it, and no
resource has ever been released more often than acquired. -/
structure Owned (holds : O → Option K) (log : List (Use K)) : Prop where
  balance : ∀ k, acquisitions log k = releases log k + (holders holds k).card
  covered : ∀ p, p <+: log → ∀ k, releases p k ≤ acquisitions p k

namespace Owned

theorem init : Owned (fun _ : O => none) ([] : List (Use K)) where
  balance k := by simp [acquisitions, releases, holders]
  covered p short k := by simp [List.prefix_nil.mp short, releases]

theorem live_iff (h : Owned holds log) : Live log k ↔ ∃ o, holds o = some k := by
  have balance := h.balance k
  unfold Live
  constructor
  · intro more
    obtain ⟨o, member⟩ := Finset.card_pos.mp (by omega : 0 < (holders holds k).card)
    exact ⟨o, mem_holders.mp member⟩
  · rintro ⟨o, held⟩
    have positive := Finset.card_pos.mpr ⟨o, mem_holders.mpr held⟩
    omega

theorem all_released (h : Owned holds log) (empty : ∀ o, holds o = none) (k : K) :
    acquisitions log k = releases log k := by
  have nobody : holders holds k = ∅ := Finset.eq_empty_of_forall_notMem fun o member => by
    simp [mem_holders, empty] at member
  simpa [nobody] using h.balance k

theorem extend (h : Owned holds log) {holds' : O → Option K}
    (balance : ∀ k, acquisitions (log ++ [e]) k = releases (log ++ [e]) k + (holders holds' k).card) :
    Owned holds' (log ++ [e]) where
  balance := balance
  covered p short k := by
    rcases List.prefix_concat_iff.mp short with rfl | short
    · have := balance k
      omega
    · exact h.covered p short k

variable [DecidableEq O]

theorem holders_update_none : holders (Function.update holds o none) k = (holders holds k).erase o := by
  ext o'
  rw [Finset.mem_erase, mem_holders, mem_holders]
  by_cases same : o' = o
  · simp [same]
  · simp [same]

theorem holders_update_some :
    holders (Function.update holds o (some k')) k =
      if k' = k then insert o (holders holds k) else (holders holds k).erase o := by
  ext o'
  split_ifs with same
  · rw [Finset.mem_insert, mem_holders, mem_holders]
    by_cases this : o' = o
    · simp [this, same]
    · simp [this]
  · rw [Finset.mem_erase, mem_holders, mem_holders]
    by_cases this : o' = o
    · simp [this, same]
    · simp [this]

theorem acquire (h : Owned holds log) (free : holds o = none) (k : K) :
    Owned (Function.update holds o (some k)) (log ++ [.acquired k]) := by
  apply h.extend
  intro k'
  have balance := h.balance k'
  rw [acquisitions_acquired, releases_acquired, holders_update_some]
  split_ifs with same
  · rw [Finset.card_insert_of_notMem (not_mem_of_none free)]
    omega
  · rw [Finset.erase_eq_of_notMem (not_mem_of_none free)]
    omega

theorem release (h : Owned holds log) (held : holds o = some k) :
    Owned (Function.update holds o none) (log ++ [.released k]) := by
  apply h.extend
  intro k'
  have balance := h.balance k'
  rw [acquisitions_released, releases_released, holders_update_none]
  split_ifs with same
  · subst same
    rw [balance, ← Finset.card_erase_add_one (mem_holders.mpr held)]
    omega
  · have other : o ∉ holders holds k' := by simp [mem_holders, held, same]
    rw [Finset.erase_eq_of_notMem other]
    exact balance

theorem fill (h : Owned holds log) (free : holds o = none) (r : Option K) :
    Owned (Function.update holds o r) (log ++ r.toList.map .acquired) := by
  cases r with
  | none =>
    rw [Option.toList_none, List.map_nil, List.append_nil, ← free, Function.update_eq_self]
    exact h
  | some k => exact h.acquire free k

theorem drop (h : Owned holds log) (o : O) :
    Owned (Function.update holds o none) (log ++ (holds o).toList.map .released) := by
  cases held : holds o with
  | none =>
    rw [Option.toList_none, List.map_nil, List.append_nil, ← held, Function.update_eq_self]
    exact h
  | some k => exact h.release held

/-- An owner without a resource takes over what another one holds. -/
theorem transfer (h : Owned holds log) (free : holds o = none) (o' : O) :
    Owned (Function.update (Function.update holds o (holds o')) o' none) log := by
  refine ⟨fun k => ?_, h.covered⟩
  rw [h.balance k, holders_update_none]
  congr 1
  cases held : holds o' with
  | none =>
    have other : o' ∉ holders holds k := not_mem_of_none held
    rw [← free, Function.update_eq_self, Finset.erase_eq_of_notMem other]
  | some k' =>
    rw [holders_update_some]
    split_ifs with same
    · have gave : o' ∈ holders holds k := mem_holders.mpr (same ▸ held)
      have took : o' ∈ insert o (holders holds k) := Finset.mem_insert_of_mem gave
      rw [Finset.card_erase_of_mem took, Finset.card_insert_of_notMem (not_mem_of_none free)]
      rfl
    · have other : o' ∉ holders holds k := by simp [mem_holders, held, same]
      rw [Finset.erase_eq_of_notMem (not_mem_of_none free), Finset.erase_eq_of_notMem other]

/-- The same where an owner has just lost its resource, which may be the one it takes. -/
theorem take {o : O} (h : Owned (Function.update holds o none) log) (o' : O) :
    Owned (Function.update (Function.update holds o (holds o')) o' none) log := by
  by_cases same : o' = o
  · subst same
    rwa [Function.update_idem]
  · have free : Function.update holds o none o = none := Function.update_self o none holds
    have moved := h.transfer free o'
    rwa [Function.update_of_ne same, Function.update_idem] at moved

end Owned

/-! ### Resources that are not shared -/

/-- No two owners hold resources at one address, so a resource is released before it is acquired
again. -/
structure Sole (address : K → A) (holds : O → Option K) (log : List (Use K)) : Prop extends Owned holds log where
  unique : ∀ {o o' k k'}, holds o = some k → holds o' = some k' → address k = address k' → o = o'
  single : ∀ p, p <+: log → ∀ k, acquisitions p k ≤ releases p k + 1

namespace Sole
variable {address : K → A}

theorem init : Sole address (fun _ : O => none) ([] : List (Use K)) where
  toOwned := .init
  unique held := nomatch held
  single p short k := by simp [List.prefix_nil.mp short, acquisitions]

theorem card_le (unique : ∀ {o o' k k'}, holds o = some k → holds o' = some k' →
    address k = address k' → o = o') (k : K) : (holders holds k).card ≤ 1 :=
  Finset.card_le_one.mpr fun _ here _ there => unique (mem_holders.mp here) (mem_holders.mp there) rfl

theorem extend (h : Sole address holds log) {holds' : O → Option K} {f : K → Use K}
    (owned : Owned holds' (log ++ r.toList.map f)) (unique : ∀ {o o' k k'}, holds' o = some k →
      holds' o' = some k' → address k = address k' → o = o') :
    Sole address holds' (log ++ r.toList.map f) where
  toOwned := owned
  unique := unique
  single p short k := by
    have whole : p = log ++ r.toList.map f ∨ p <+: log := by
      cases r with
      | none =>
        rw [Option.toList_none, List.map_nil, List.append_nil] at short
        exact .inr short
      | some k => exact List.prefix_concat_iff.mp short
    rcases whole with rfl | short
    · rw [owned.balance k]
      exact Nat.add_le_add_left (card_le unique k) _
    · exact h.single p short k

variable [DecidableEq O]

theorem fill (h : Sole address holds log) (free : holds o = none) (r : Option K)
    (fresh : ∀ k ∈ r, ∀ k', Live log k' → address k' ≠ address k) :
    Sole address (Function.update holds o r) (log ++ r.toList.map .acquired) := by
  have apart : ∀ {o' k k'}, r = some k → holds o' = some k' → address k' ≠ address k :=
    fun new held => fresh _ new _ (h.live_iff.mpr ⟨_, held⟩)
  refine h.extend (h.toOwned.fill free r) fun {o₁ o₂ k₁ k₂} first second same => ?_
  rcases update_cases first with ⟨one, first⟩ | ⟨-, first⟩
  · rcases update_cases second with ⟨two, -⟩ | ⟨-, second⟩
    · rw [one, two]
    · exact absurd same.symm (apart first second)
  · rcases update_cases second with ⟨-, second⟩ | ⟨-, second⟩
    · exact absurd same (apart second first)
    · exact h.unique first second same

theorem drop (h : Sole address holds log) (o : O) :
    Sole address (Function.update holds o none) (log ++ (holds o).toList.map .released) := by
  have kept : ∀ {o' k}, Function.update holds o none o' = some k → holds o' = some k := by
    intro o' k held
    rcases update_cases held with ⟨-, gone⟩ | ⟨-, held⟩
    · contradiction
    · exact held
  exact h.extend (h.toOwned.drop o) fun first second => h.unique (kept first) (kept second)

theorem transfer (h : Sole address holds log) (free : holds o = none) (o' : O) :
    Sole address (Function.update (Function.update holds o (holds o')) o' none) log := by
  refine ⟨h.toOwned.transfer free o', fun {o₁ o₂ k₁ k₂} first second same => ?_, h.single⟩
  have before : ∀ {o₁ k}, Function.update (Function.update holds o (holds o')) o' none o₁ = some k →
      o₁ ≠ o' ∧ holds (if o₁ = o then o' else o₁) = some k := by
    intro o₁ k held
    rcases update_cases held with ⟨-, gone⟩ | ⟨gave, held⟩
    · contradiction
    · refine ⟨gave, ?_⟩
      rcases update_cases held with ⟨took, held⟩ | ⟨other, held⟩
      · rwa [if_pos took]
      · rwa [if_neg other]
  obtain ⟨apart₁, first⟩ := before first
  obtain ⟨apart₂, second⟩ := before second
  have owner := h.unique first second same
  split_ifs at owner with one two two
  · rw [one, two]
  · exact absurd owner.symm apart₂
  · exact absurd owner apart₁
  · exact owner

theorem take {o : O} (h : Sole address (Function.update holds o none) log) (o' : O) :
    Sole address (Function.update (Function.update holds o (holds o')) o' none) log := by
  by_cases same : o' = o
  · subst same
    rwa [Function.update_idem]
  · have free : Function.update holds o none o = none := Function.update_self o none holds
    have moved := h.transfer free o'
    rwa [Function.update_of_ne same, Function.update_idem] at moved

end Sole
end
end

/-! ### Populations -/

variable [DecidableEq O] (key : X → Option K) (objects : O → Option X)

theorem holding_update (o : O) (x : Option X) :
    holding key (Function.update objects o x) = Function.update (holding key objects) o (x.bind key) := by
  funext o'
  by_cases same : o' = o
  · simp [holding, same]
  · simp [holding, same]

theorem holding_update_same (o : O) (x : Option X) (same : x.bind key = (objects o).bind key) :
    holding key (Function.update objects o x) = holding key objects := by
  rw [holding_update, same]
  exact Function.update_eq_self o _

variable {key objects} {o o' : O} {x y : X}

omit [DecidableEq O] in
theorem holding_some (here : objects o = some x) : holding key objects o = key x := by simp [holding, here]

omit [DecidableEq O] in
theorem holding_none (free : objects o = none) : holding key objects o = none := by simp [holding, free]

theorem holding_absent (free : objects o = none) :
    Function.update (holding key objects) o none = holding key objects := by
  have empty : holding key objects o = none := holding_none free
  rw [← empty, Function.update_eq_self]

theorem holding_take (gave : key x = holding key objects o') (left : key y = none) :
    holding key (Function.update (Function.update objects o (some x)) o' (some y)) =
      Function.update (Function.update (holding key objects) o (holding key objects o')) o' none := by
  rw [holding_update, holding_update, Option.bind_some, Option.bind_some, gave, left]

theorem forall_update {P : X → Prop} {x : Option X} (others : ∀ o' y, o' ≠ o → objects o' = some y → P y)
    (fits : ∀ y, x = some y → P y) : ∀ o' y, Function.update objects o x o' = some y → P y := by
  intro o' y there
  rcases update_cases there with ⟨-, new⟩ | ⟨other, there⟩
  · exact fits y new
  · exact others o' y other there

section
variable [Fintype O] [DecidableEq K] {log : List (Use K)} {k : K} {address : K → A}

omit [DecidableEq O] in
theorem Owned.live_iff_object (h : Owned (holding key objects) log) :
    Live log k ↔ ∃ o x, objects o = some x ∧ key x = some k := by
  rw [h.live_iff]
  simp only [holding, Option.bind_eq_some_iff]

omit [DecidableEq O] in
theorem Owned.released_of_absent (h : Owned (holding key objects) log) (gone : ∀ o, objects o = none) (k : K) :
    acquisitions log k = releases log k :=
  h.all_released (fun o => holding_none (gone o)) k

theorem Owned.take_object (h : Owned (Function.update (holding key objects) o none) log)
    (gave : key x = holding key objects o') (left : key y = none) :
    Owned (holding key (Function.update (Function.update objects o (some x)) o' (some y))) log := by
  rw [holding_take gave left]
  exact h.take o'

theorem Sole.take_object (h : Sole address (Function.update (holding key objects) o none) log)
    (gave : key x = holding key objects o') (left : key y = none) :
    Sole address (holding key (Function.update (Function.update objects o (some x)) o' (some y))) log := by
  rw [holding_take gave left]
  exact h.take o'

end

end Celestite.Sequential
