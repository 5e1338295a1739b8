import Celestite.Arena.Refinement
import Celestite.Sequential.Packing

/-!
# How much an arena holds

Enough room for any order of requests, requests in an order that wastes none, and arrays.
-/

namespace Celestite.Arena
open Celestite.Sequential

variable {a : Arena} {b : Bump} {c : Call} {cs : List Call} {sizeof alignof : BitVec 64} {n : ℕ}

def Outcome.place (o : Outcome) : Option ℕ := o.result.map BitVec.toNat

theorem Frees.places (frees : Frees a b) (valid : ∀ c ∈ cs, c.Valid) :
    (a.serve cs).map Outcome.place = (b.serve (cs.map Call.layout)).map Served.result := by
  rw [← frees.serve valid, List.map_map]
  rfl

theorem Frees.served_iff (frees : Frees a b) (valid : ∀ c ∈ cs, c.Valid) :
    (∀ o ∈ a.serve cs, o.result ≠ none) ↔ ∀ s ∈ b.serve (cs.map Call.layout), s.result ≠ none := by
  rw [← frees.serve valid]
  simp [Outcome.served]

theorem Frees.place (frees : Frees a b) (valid : c.Valid) :
    b.place c.layout = a.cur.toNat + (a.pad c.alignment).toNat := by
  rw [pad_eq valid, frees.cur, Bump.place]

theorem Frees.fits_iff (frees : Frees a b) (valid : c.Valid) {k : ℕ} :
    b.place c.layout + k ≤ b.limit ↔ ((a.pad c.alignment).toNat + k : ℕ) ≤ a.capacity := by
  have within := frees.within
  rw [frees.place valid, frees.capacity, frees.cur]
  omega

theorem alignment_dvd {c' : Call} (valid : c.Valid) (valid' : c'.Valid)
    (le : c'.alignment.toNat ≤ c.alignment.toNat) : c'.layout.alignment ∣ c.layout.alignment := by
  obtain ⟨k, power⟩ := valid.power
  obtain ⟨k', power'⟩ := valid'.power
  rw [power, power'] at le
  rw [Call.layout_alignment, Call.layout_alignment, power, power']
  exact Nat.pow_dvd_pow 2 ((Nat.pow_le_pow_iff_right (by decide)).mp le)

theorem packs (valid : ∀ c ∈ cs, c.Valid) (whole : ∀ c ∈ cs, c.alignment.toNat ∣ c.size.toNat)
    (falling : cs.Pairwise fun c c' => c'.alignment.toNat ≤ c.alignment.toNat) : Packs (cs.map Call.layout) := by
  constructor
  · intro l member
    obtain ⟨c, member', rfl⟩ := List.mem_map.mp member
    exact whole c member'
  · rw [List.pairwise_map]
    exact falling.imp_of_mem fun member member' le => alignment_dvd (valid _ member) (valid _ member') le

/-- Requests are served in any order if there is room for each with all the padding it may need. Those of whole
multiples of their alignments, by falling alignment, are all served exactly if they fit with the padding of
the first, and lie side by side then. -/
theorem packed_exactly (within : a.cur.toNat ≤ a.end_.toNat) (span : a.end_.toNat - a.cur.toNat < 2 ^ 63)
    (valid : ∀ c' ∈ c :: cs, c'.Valid) :
    ((((c :: cs).map Call.layout).map Layout.atMost).sum ≤ a.capacity →
      ∀ o ∈ a.serve (c :: cs), o.result ≠ none) ∧
    ((∀ c' ∈ c :: cs, c'.alignment.toNat ∣ c'.size.toNat) →
      (c :: cs).Pairwise (fun c c' => c'.alignment.toNat ≤ c.alignment.toNat) →
      ((∀ o ∈ a.serve (c :: cs), o.result ≠ none) ↔
        ((a.pad c.alignment).toNat + totalSize ((c :: cs).map Call.layout) : ℕ) ≤ a.capacity) ∧
      ((∀ o ∈ a.serve (c :: cs), o.result ≠ none) → (a.serve (c :: cs)).map Outcome.place =
        (stacked (a.cur.toNat + (a.pad c.alignment).toNat) ((c :: cs).map Call.layout)).map some)) := by
  have frees : Frees a ⟨a.cur.toNat, a.end_.toNat⟩ := ⟨rfl, rfl, within, span⟩
  have here := valid c List.mem_cons_self
  constructor
  · intro room
    rw [frees.served_iff valid]
    refine Bump.serve_room ?_ ?_
    · intro l member
      obtain ⟨c', member', rfl⟩ := List.mem_map.mp member
      exact (valid c' member').positive
    · rw [frees.capacity] at room
      change a.cur.toNat + _ ≤ a.end_.toNat
      change _ ≤ ((a.end_.toNat - a.cur.toNat : ℕ) : ℤ) at room
      omega
  · intro whole falling
    have packs := packs valid whole falling
    rw [frees.served_iff valid, frees.places valid, ← frees.fits_iff here, ← frees.place here]
    have exactly := Bump.serve_falling_iff (b := ⟨a.cur.toNat, a.end_.toNat⟩) packs here.positive within
    exact ⟨exactly, fun served => Bump.serve_falling packs here.positive (exactly.mp served)⟩

theorem packed_exactly_two : ((ofRange 4098 4112).serve [.typed 8 4, .sized 2 2]).map Outcome.place =
    [some 4100, some 4108] := by
  have valid : ∀ c ∈ [Call.typed 8 4, .sized 2 2], c.Valid := by
    simp only [List.forall_mem_cons]
    exact ⟨⟨⟨2, rfl⟩, by decide, by simp [Call.nonempty]⟩, ⟨⟨1, rfl⟩, by decide, trivial⟩, nofun⟩
  obtain ⟨exactly, places⟩ := (@packed_exactly (ofRange 4098 4112) _ _ (by decide) (by decide) valid).2
    (by decide) (by decide)
  exact places (exactly.mpr (by decide))

/-- `allocate<T>()` again and again yields an array, of as many elements as there is room for. -/
theorem array_of (within : a.cur.toNat ≤ a.end_.toNat) (span : a.end_.toNat - a.cur.toNat < 2 ^ 63)
    (valid : (Call.typed sizeof alignof).Valid) (whole : alignof.toNat ∣ sizeof.toNat) (n : ℕ) :
    (a.serve (List.replicate n (.typed sizeof alignof))).map Outcome.place = (List.range n).map fun i =>
      if ((a.pad alignof).toNat + (i + 1) * sizeof.toNat : ℕ) ≤ a.capacity then
        some (a.cur.toNat + (a.pad alignof).toNat + i * sizeof.toNat)
      else none := by
  have frees : Frees a ⟨a.cur.toNat, a.end_.toNat⟩ := ⟨rfl, rfl, within, span⟩
  have each : ∀ c ∈ List.replicate n (Call.typed sizeof alignof), c.Valid := by
    intro c member
    rwa [List.eq_of_mem_replicate member]
  have filled := @Bump.serve_replicate ⟨a.cur.toNat, a.end_.toNat⟩ _ n valid.positive whole
  rw [frees.places each, List.map_replicate, filled]
  refine List.map_congr_left fun i _ => ?_
  have place : _ = a.cur.toNat + (a.pad alignof).toNat := frees.place valid
  rw [← place]
  exact if_congr (frees.fits_iff valid) rfl rfl

/-- Two elements of an array of 12 bytes fit between 4100 and 4130, a third does not. -/
theorem array_of_three : ((ofRange 4100 4130).serve (List.replicate 3 (.typed 12 4))).map Outcome.place =
    [some 4100, some 4112, none] := by
  have valid : (Call.typed 12 4).Valid := ⟨⟨2, rfl⟩, by decide, by simp [Call.nonempty]⟩
  rw [array_of (by decide) (by decide) valid (by decide)]
  decide

end Celestite.Arena
