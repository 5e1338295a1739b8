import Celestite.Stream.Copy
import Celestite.Stream.Derived

/-!
# Copying between any two streams

`WriteStream::copy_from` with the `read` of one derived class and the `write` of another.
-/

namespace Celestite

/-- What the call throws: its own exception, or one of the `read` or the `write`. -/
inductive CopyError (ε ε' : Type) where
  | notOpen
  | source (e : ε)
  | dest (e : ε')
  deriving DecidableEq

namespace WriteStream
variable {σ τ ε ε' φ φ' : Type}

def onSource {α : Type} (p : Program σ ε φ α) : Program (σ × τ) (CopyError ε ε') (φ ⊕ φ') α := fun s =>
  match p s.1 with
  | .ok a x => .ok a (x, s.2)
  | .threw e x => .threw (.source e) (x, s.2)
  | .undefined x => .undefined (.inl x)

def onDest {α : Type} (p : Program τ ε' φ' α) : Program (σ × τ) (CopyError ε ε') (φ ⊕ φ') α := fun s =>
  match p s.2 with
  | .ok a x => .ok a (s.1, x)
  | .threw e x => .threw (.dest e) (s.1, x)
  | .undefined x => .undefined (.inr x)

def copyChunk (read : ℕ → Program σ ε φ (List UInt8)) (write : List UInt8 → Program τ ε' φ' Unit) (size n : ℕ) :
    Program (σ × τ) (CopyError ε ε') (φ ⊕ φ') ℕ := do
  let data ← onSource (read (toRead size n))
  onDest (write data)
  pure (n - toRead size n)

def copyFrom (isOpen : σ → Bool) (read : ℕ → Program σ ε φ (List UInt8)) (isOpen' : τ → Bool)
    (write : List UInt8 → Program τ ε' φ' Unit) (passes n : ℕ) (s : σ × τ) :
    Option (Outcome (σ × τ) (CopyError ε ε') (φ ⊕ φ') Unit) :=
  if ¬(isOpen s.1 ∧ isOpen' s.2) then some (.threw .notOpen s)
  else Program.loop (fun n => n > 0) (copyChunk read write (bufSz n)) passes n s

end WriteStream

/-- A `read` of more than is ahead throws, and nothing is ahead then. -/
structure Exhausts {σ ε φ : Type} (read : ℕ → Program σ ε φ (List UInt8)) (e : ε)
    (ahead : List UInt8 → σ → Prop) : Prop where
  read : ∀ {bs s n}, ahead bs s → bs.length < n → ∃ s', read n s = .threw e s' ∧ ahead [] s'

section
variable {σ τ ε ε' φ φ' : Type} {read : ℕ → Program σ ε φ (List UInt8)} {write : List UInt8 → Program τ ε' φ' Unit}
  {ahead : List UInt8 → σ → Prop} {done : List UInt8 → τ → Prop} {bs out : List UInt8} {s : σ} {t : τ}
  {size n m : ℕ}

theorem chunk_copied (supplies : Supplies read ahead) (collects : Collects write done) (here : ahead bs s)
    (there : done out t) (room : toRead size n ≤ bs.length) :
    ∃ s' t', WriteStream.copyChunk read write size n (s, t) = .ok (n - toRead size n) (s', t') ∧
      ahead (bs.drop (toRead size n)) s' ∧ done (out ++ bs.take (toRead size n)) t' := by
  obtain ⟨s', reads, after⟩ := supplies.read here room
  obtain ⟨t', writes, after'⟩ := collects.write there (bs.take (toRead size n))
  have first : WriteStream.onSource (read (toRead size n)) (s, t) =
      (.ok (bs.take (toRead size n)) (s', t) : Outcome (σ × τ) (CopyError ε ε') (φ ⊕ φ') _) := by
    simp only [WriteStream.onSource, reads]
  have second : WriteStream.onDest (write (bs.take (toRead size n))) (s', t) =
      (.ok () (s', t') : Outcome (σ × τ) (CopyError ε ε') (φ ⊕ φ') _) := by
    simp only [WriteStream.onDest, writes]
  refine ⟨s', t', ?_, after, after'⟩
  rw [WriteStream.copyChunk, Program.bind_ok first, Program.bind_ok second, Program.pure_run]

/-- Whatever the size of the chunks, all of the bytes arrive. -/
theorem copied_whole (supplies : Supplies read ahead) (collects : Collects write done) (here : ahead bs s)
    (there : done out t) (room : n ≤ bs.length) (buffer : 0 < n → 0 < size) :
    ∃ s' t', Program.Ends (fun n => n > 0) (WriteStream.copyChunk read write size) n (s, t) (.ok () (s', t')) ∧
      ahead (bs.drop n) s' ∧ done (out ++ bs.take n) t' := by
  induction n using Nat.strong_induction_on generalizing bs out s t with
  | _ n ih =>
    rcases Nat.eq_zero_or_pos n with rfl | more
    · refine ⟨s, t, Program.ends_done rfl, here, ?_⟩
      rwa [List.take_zero, List.append_nil]
    · obtain ⟨le, -⟩ := @to_read_le size n
      have taken := to_read_pos (buffer more) more
      obtain ⟨s₁, t₁, chunk, here, there⟩ := chunk_copied supplies collects here there (le.trans room)
      generalize toRead size n = m at *
      obtain ⟨k, rfl⟩ := Nat.exists_eq_add_of_le le
      rw [Nat.add_sub_cancel_left] at chunk
      obtain ⟨s', t', ended, after, after'⟩ := ih k (by omega) here there
        (by rw [List.length_drop]; omega) fun _ => buffer more
      rw [List.drop_drop] at after
      rw [List.append_assoc, ← List.take_add] at after'
      exact ⟨s', t', Program.ends_next (by simpa using more) chunk ended, after, after'⟩

/-- From a source that is too short the full chunks arrive, and what is behind them is lost. -/
theorem copied_short {e : ε} (supplies : Supplies read ahead) (exhausts : Exhausts read e ahead)
    (collects : Collects write done) (here : ahead bs s) (there : done out t) (short : bs.length < n)
    (buffer : 0 < size) :
    ∃ s' t', Program.Ends (fun n => n > 0) (WriteStream.copyChunk read write size) n (s, t)
        (.threw (.source e) (s', t')) ∧
      ahead [] s' ∧ done (out ++ bs.take (size * (bs.length / size))) t' := by
  induction n using Nat.strong_induction_on generalizing bs out s t with
  | _ n ih =>
    have more : 0 < n := by omega
    have goes : decide (n > 0) = true := by simpa using more
    rcases lt_or_ge bs.length (toRead size n) with drained | room
    · obtain ⟨s', threw, after⟩ := exhausts.read here drained
      have first : WriteStream.onSource (read (toRead size n)) (s, t) =
          (.threw (.source e) (s', t) : Outcome (σ × τ) (CopyError ε ε') (φ ⊕ φ') _) := by
        simp only [WriteStream.onSource, threw]
      have chunk : WriteStream.copyChunk read write size n (s, t) = .threw (.source e) (s', t) := by
        rw [WriteStream.copyChunk, Program.bind_threw first]
      obtain ⟨-, le_size⟩ := @to_read_le size n
      have none : bs.length / size = 0 := Nat.div_eq_of_lt (by omega)
      refine ⟨s', t, Program.ends_threw goes chunk, after, ?_⟩
      rwa [none, Nat.mul_zero, List.take_zero, List.append_nil]
    · have full : toRead size n = size := by
        unfold toRead at room ⊢
        split_ifs at room ⊢
        · rfl
        · omega
      obtain ⟨s₁, t₁, chunk, here, there⟩ := chunk_copied supplies collects here there room
      rw [full] at chunk here there room
      obtain ⟨s', t', ended, after, after'⟩ := ih (n - size) (by omega) here there
        (by rw [List.length_drop]; omega)
      have chunks : size * (bs.length / size) = size + size * ((bs.length - size) / size) := by
        rw [Nat.div_eq_sub_div buffer room, Nat.mul_add, Nat.mul_one, Nat.add_comm]
      rw [List.append_assoc, List.length_drop, ← List.take_add, ← chunks] at after'
      exact ⟨s', t', Program.ends_next goes chunk ended, after, after'⟩

end
end Celestite
