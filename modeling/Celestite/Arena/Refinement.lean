import Celestite.Arena.Model
import Celestite.Sequential.Bump

/-!
# The arena allocates by bumping

On requests that callers may make no sum wraps, and `allocate` cuts aligned blocks off the front of
the range.
-/

namespace Celestite.Arena
open Celestite.Sequential

variable {a : Arena} {b : Bump} {c : Call} {cs : List Call} {p size alignment : BitVec 64}

/-- `-x & (2^k - 1)` is what is left to the next multiple of `2^k`. -/
theorem neg_and_mask {x : BitVec 64} {k : ℕ} (power : alignment.toNat = 2 ^ k) :
    (-x &&& (alignment - 1)).toNat = padding alignment.toNat x.toNat := by
  have wide := alignment.isLt
  have positive := Nat.two_pow_pos k
  rw [power] at wide ⊢
  have divides : 2 ^ k ∣ 2 ^ 64 :=
    Nat.pow_dvd_pow 2 (Nat.le_of_lt ((Nat.pow_lt_pow_iff_right (by decide)).mp wide))
  have mask : (alignment - 1).toNat = 2 ^ k - 1 := by
    have one : BitVec.toNat (1 : BitVec 64) = 1 := rfl
    rw [BitVec.toNat_sub, power, one]
    omega
  rw [BitVec.toNat_and, mask, Nat.and_two_pow_sub_one_eq_mod, BitVec.toNat_neg,
    Nat.mod_mod_of_dvd _ divides]
  refine eq_padding (Nat.mod_lt _ positive) (Nat.dvd_of_mod_eq_zero ?_)
  rw [Nat.add_mod_mod, Nat.add_sub_cancel' x.isLt.le]
  exact Nat.mod_eq_zero_of_dvd divides

/-- The free addresses of an arena that is no larger than `std::ptrdiff_t` can count. -/
structure Frees (a : Arena) (b : Bump) : Prop where
  cur : a.cur.toNat = b.cur
  end_ : a.end_.toNat = b.limit
  within : b.cur ≤ b.limit
  span : b.limit - b.cur < 2 ^ 63

theorem Frees.capacity (frees : Frees a b) : a.capacity = (b.limit - b.cur : ℕ) := by
  obtain ⟨cur, end_, within, span⟩ := frees
  have difference : (a.end_ - a.cur).toNat = b.limit - b.cur := by
    rw [BitVec.toNat_sub, cur, end_]
    have small := a.end_.isLt
    omega
  rw [Arena.capacity, BitVec.toInt_eq_toNat_of_lt (by omega), difference]

def Call.layout (c : Call) : Layout := ⟨c.size.toNat, c.alignment.toNat⟩

@[simp] theorem Call.layout_size : c.layout.size = c.size.toNat := rfl
@[simp] theorem Call.layout_alignment : c.layout.alignment = c.alignment.toNat := rfl

theorem perform_eq : a.perform c = a.allocate c.size c.alignment := by
  cases c <;> rfl

theorem pad_eq (valid : c.Valid) : (a.pad c.alignment).toNat = padding c.layout.alignment a.cur.toNat := by
  obtain ⟨k, power⟩ := valid.power
  exact neg_and_mask power

theorem Call.Valid.positive (valid : c.Valid) : 0 < c.layout.alignment := by
  obtain ⟨k, power⟩ := valid.power
  rw [Call.layout_alignment, power]
  exact Nat.two_pow_pos k

/-- Neither the padding nor the sum wraps. -/
theorem wanted_eq (valid : c.Valid) : (a.pad c.alignment + c.size).toNat =
    padding c.layout.alignment a.cur.toNat + c.layout.size := by
  have short := padding_lt (n := a.cur.toNat) valid.positive
  have small := valid.small
  rw [BitVec.toNat_add, pad_eq valid, Call.layout_size]
  rw [Call.layout_alignment] at short ⊢
  omega

theorem wanted_lt (valid : c.Valid) : (a.pad c.alignment + c.size).toNat < 2 ^ 63 := by
  have short := padding_lt (n := a.cur.toNat) valid.positive
  have small := valid.small
  rw [wanted_eq valid, Call.layout_size]
  rw [Call.layout_alignment] at short ⊢
  omega

theorem Frees.slt_iff (frees : Frees a b) (valid : c.Valid) :
    (a.end_ - a.cur).slt (a.pad c.alignment + c.size) = true ↔ b.limit < b.place c.layout + c.layout.size := by
  have capacity := frees.capacity
  have within := frees.within
  unfold Arena.capacity at capacity
  have wanted := wanted_eq (a := a) valid
  have small := wanted_lt (a := a) valid
  rw [BitVec.slt, decide_eq_true_iff, capacity, BitVec.toInt_eq_toNat_of_lt (by omega), wanted, frees.cur]
  unfold Bump.place
  omega

theorem Frees.perform (frees : Frees a b) (valid : c.Valid) :
    (a.perform c).1.map BitVec.toNat = (b.take c.layout).1 ∧ Frees (a.perform c).2 (b.take c.layout).2 := by
  rw [perform_eq]
  have stays := frees.slt_iff valid
  rcases Bump.take_cases (b := b) (l := c.layout) with ⟨fits, result, after⟩ | ⟨short, result, after⟩
  · unfold allocate
    rw [if_neg (by rw [stays]; omega), result]
    have limit := Bump.take_limit (b := b) (l := c.layout)
    have start := Bump.cur_le_place (b := b) (l := c.layout)
    have small := a.end_.isLt
    have span := frees.span
    rw [frees.end_] at small
    have block : (a.cur + a.pad c.alignment).toNat = b.place c.layout := by
      rw [BitVec.toNat_add, pad_eq valid, frees.cur]
      unfold Bump.place at fits ⊢
      omega
    have rest : (a.cur + a.pad c.alignment + c.size).toNat = b.place c.layout + c.layout.size := by
      rw [BitVec.toNat_add, block, Call.layout_size]
      rw [Call.layout_size] at fits
      omega
    refine ⟨congrArg some block, ⟨rest.trans after.symm, frees.end_.trans limit.symm, ?_, ?_⟩⟩
    · omega
    · omega
  · unfold allocate
    rw [if_pos (by rw [stays]; exact short), result, after]
    exact ⟨rfl, frees⟩

/-! ### Runs -/

def Outcome.served (o : Outcome) : Served :=
  ⟨o.call.layout, o.result.map BitVec.toNat, o.before.cur.toNat, o.after.cur.toNat⟩

theorem Frees.serve (frees : Frees a b) (valid : ∀ c ∈ cs, c.Valid) :
    (a.serve cs).map Outcome.served = b.serve (cs.map Call.layout) := by
  induction cs generalizing a b with
  | nil => rfl
  | cons c cs ih =>
    obtain ⟨result, after⟩ := frees.perform (valid c List.mem_cons_self)
    have rest := ih after fun c' later => valid c' (List.mem_cons_of_mem _ later)
    simp only [Arena.serve, Bump.serve, List.map_cons, Outcome.served, result, frees.cur, after.cur, rest]

variable {o o' : Outcome} {p' : BitVec 64}

def Outcome.range (o : Outcome) : Set ℕ := o.served.range

theorem Outcome.served_result (granted : o.result = some p) : o.served.result = some p.toNat := by
  simp [served, granted]

theorem Frees.mem_serve (frees : Frees a b) (valid : ∀ c ∈ cs, c.Valid) (member : o ∈ a.serve cs) :
    o.call.Valid ∧ (o.result, o.after) = o.before.perform o.call ∧
      ∃ b' : Bump, Frees o.before b' ∧ b'.limit = b.limit := by
  induction cs generalizing a b with
  | nil => contradiction
  | cons c cs ih =>
    rcases List.mem_cons.mp member with rfl | later
    · exact ⟨valid c List.mem_cons_self, rfl, b, frees, rfl⟩
    · obtain ⟨-, after⟩ := frees.perform (valid c List.mem_cons_self)
      obtain ⟨valid', eq, b', before, limit⟩ :=
        ih after (fun c' later => valid c' (List.mem_cons_of_mem _ later)) later
      exact ⟨valid', eq, b', before, limit.trans Bump.take_limit⟩

theorem Frees.mem_served (frees : Frees a b) (valid : ∀ c ∈ cs, c.Valid) (member : o ∈ a.serve cs) :
    o.served ∈ b.serve (cs.map Call.layout) := by
  rw [← frees.serve valid]
  exact List.mem_map_of_mem member

theorem perform_none (failed : (a.perform c).1 = none) : (a.perform c).2 = a := by
  rw [perform_eq] at failed ⊢
  unfold allocate at failed ⊢
  split at failed
  · rename_i short
    rw [if_pos short]
  · contradiction

theorem Frees.mem_capacity (frees : Frees a b) (valid : ∀ c ∈ cs, c.Valid) (member : o ∈ a.serve cs) :
    o.before.capacity = b.limit - o.served.before ∧ o.after.capacity = b.limit - o.served.after := by
  obtain ⟨valid', eq, b', before, limit⟩ := frees.mem_serve valid member
  obtain ⟨-, after⟩ := before.perform valid'
  rw [← congrArg Prod.snd eq] at after
  have same := Bump.take_limit (b := b') (l := o.call.layout)
  have positions : b'.cur = o.served.before ∧ (b'.take o.call.layout).2.cur = o.served.after :=
    ⟨before.cur.symm, after.cur.symm⟩
  have within := before.within
  have within' := after.within
  rw [before.capacity, after.capacity]
  omega

/-- In every run of calls on an arena the blocks are aligned, lie in the range, one after the
other, and the capacity shrinks by exactly what each block and its padding take. -/
theorem blocks_aligned_disjoint {begin_ end_ : BitVec 64} (somewhere : 0 < begin_.toNat)
    (within : begin_.toNat ≤ end_.toNat) (span : end_.toNat - begin_.toNat < 2 ^ 63)
    (valid : ∀ c ∈ cs, c.Valid) :
    (∀ o ∈ (ofRange begin_ end_).serve cs, ∀ p, o.result = some p →
      o.call.alignment.toNat ∣ p.toNat ∧ begin_.toNat ≤ p.toNat ∧ p.toNat + o.call.size.toNat ≤ end_.toNat ∧ p ≠ 0 ∧
      o.before.capacity - o.after.capacity = (o.before.pad o.call.alignment).toNat + o.call.size.toNat) ∧
    ((ofRange begin_ end_).serve cs).Pairwise (fun o o' => o.range ∩ o'.range = ∅ ∧
      ∀ p p', o.result = some p → o'.result = some p' → p.toNat + o.call.size.toNat ≤ p'.toNat) ∧
    (∀ o ∈ (ofRange begin_ end_).serve cs, 0 ≤ o.after.capacity ∧ o.after.capacity ≤ o.before.capacity ∧
      o.before.capacity ≤ end_.toNat - begin_.toNat ∧
      (o.result = none ↔ o.before.capacity < (o.before.pad o.call.alignment).toNat + o.call.size.toNat) ∧
      (o.result = none → o.after = o.before)) := by
  -- the run is one of the bump allocator, whose blocks and positions are known
  have frees : Frees (ofRange begin_ end_) ⟨begin_.toNat, end_.toNat⟩ := ⟨rfl, rfl, within, span⟩
  have pads : ∀ o ∈ (ofRange begin_ end_).serve cs, 0 < o.served.layout.alignment ∧
      (o.before.pad o.call.alignment).toNat = padding o.served.layout.alignment o.served.before := by
    intro o member
    have valid' := (frees.mem_serve valid member).1
    exact ⟨valid'.positive, pad_eq valid'⟩
  refine ⟨?_, ?_, ?_⟩
  · intro o member p granted
    obtain ⟨positive, pad⟩ := pads o member
    obtain ⟨before, after⟩ := frees.mem_capacity valid member
    obtain ⟨multiple, above, below, start, next⟩ := Bump.mem_serve_some within positive
      (frees.mem_served valid member) (o.served_result granted)
    refine ⟨multiple, above, below, ?_, ?_⟩
    · rintro rfl
      exact absurd above (not_le.mpr somewhere)
    · rw [before, after, pad, next]
      have size : o.served.layout.size = o.call.size.toNat := rfl
      omega
  · have positive : ∀ l ∈ cs.map Call.layout, 0 < l.alignment := by
      intro l member
      obtain ⟨c, member', rfl⟩ := List.mem_map.mp member
      exact (valid c member').positive
    have ordered := Bump.serve_ordered frees.within positive
    rw [← frees.serve valid, List.pairwise_map] at ordered
    refine ordered.imp fun {o o'} apart => ⟨Bump.range_disjoint apart, fun p p' first second => ?_⟩
    exact apart _ _ (o.served_result first) (o'.served_result second)
  · intro o member
    obtain ⟨positive, pad⟩ := pads o member
    obtain ⟨before, after⟩ := frees.mem_capacity valid member
    change _ = (end_.toNat - _ : ℤ) at before after
    have member' := frees.mem_served valid member
    obtain ⟨above, shrinks, below, -⟩ := Bump.mem_serve_shrinks within member'
    change begin_.toNat ≤ _ at above
    change _ ≤ end_.toNat at below
    have fails := Bump.mem_serve_none within member'
    have size : o.served.layout.size = o.call.size.toNat := rfl
    have refused : o.result = none ↔ o.served.result = none := by simp [Outcome.served]
    refine ⟨by omega, by omega, by omega, ?_, fun failed => ?_⟩
    · rw [refused, fails, before, pad]
      change end_.toNat < _ ↔ _
      omega
    · have eq := (frees.mem_serve valid member).2.1
      have same := congrArg Prod.snd eq
      exact same.trans (perform_none ((congrArg Prod.fst eq).symm.trans failed))

theorem blocks_aligned_disjoint_three :
    let run := (ofRange 4096 4128).serve [.sized 1 2, .typed 4 4, .typed 16 16, .sized 1 1]
    run.map Outcome.result = [some 4096, some 4100, some 4112, none] ∧
      run.Pairwise (fun o o' => o.range ∩ o'.range = ∅) := by
  refine ⟨by decide, ?_⟩
  have valid : ∀ c ∈ [Call.sized 1 2, .typed 4 4, .typed 16 16, .sized 1 1], c.Valid := by
    simp only [List.forall_mem_cons]
    refine ⟨⟨⟨1, rfl⟩, by decide, trivial⟩, ⟨⟨2, rfl⟩, by decide, ?_⟩, ⟨⟨4, rfl⟩, by decide, ?_⟩,
      ⟨⟨0, rfl⟩, by decide, trivial⟩, nofun⟩
    · simp [Call.nonempty]
    · simp [Call.nonempty]
  have facts := @blocks_aligned_disjoint _ 4096 4128 (by decide) (by decide) (by decide) valid
  exact facts.2.1.imp And.left

end Celestite.Arena
