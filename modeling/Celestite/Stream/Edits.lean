import Celestite.Stream.Patch

/-!
# The order of patches

A header is reserved and filled in later. In a run of sequential writes and patches every patch
can be put off to the end, if nothing it overlaps is written after it or by another patch.
-/

namespace Celestite
open Celestite.Sequential

/-- What a run does with the stream: sequential writes, and patches. -/
inductive Edit where
  | write (data : List UInt8)
  | writeNum (endian : Endian) (f : Field) (src : Object f.type)
  | patchBytes (offset : ℤ) (data : List UInt8)
  | patchNum (endian : Endian) (f : Field) (offset : ℤ) (src : Object f.type)

namespace Edit

def perform (overflow : Overflow) (host : Endian) : Edit → Cursor.Op Unit
  | write data => Cursor.write data
  | writeNum endian f src => Celestite.writeNum host endian f src
  | patchBytes offset data => Celestite.patchBytes overflow offset data
  | patchNum endian f offset src => Celestite.patchNum overflow host endian f offset src

def data (host : Endian) : Edit → List UInt8
  | write data | patchBytes _ data => data
  | writeNum endian f src | patchNum endian f _ src => wire endian f (src.number host)

def offset? : Edit → Option ℤ
  | write _ | writeNum _ _ _ => none
  | patchBytes offset _ | patchNum _ _ offset _ => some offset

def patches (e : Edit) : Bool := e.offset?.isSome

def runAll (overflow : Overflow) (host : Endian) : List Edit → Cursor.Op Unit
  | [] => pure ()
  | e :: es => do
    e.perform overflow host
    runAll overflow host es

def next (host : Endian) (pos : ℤ) (e : Edit) : ℤ := if e.patches then pos else pos + (e.data host).length

end Edit

/-- An edit's bytes where it puts them, from a given position on. -/
structure Touch where
  patch : Bool
  place : ℤ
  data : List UInt8

namespace Touch

def of (host : Endian) (pos : ℤ) (e : Edit) : Touch := ⟨e.patches, e.offset?.getD pos, e.data host⟩

/-- What the edits of a run touch, in order. -/
def trace (host : Endian) : ℤ → List Edit → List Touch
  | _, [] => []
  | pos, e :: es => .of host pos e :: trace host (e.next host pos) es

def InRange (len : ℤ) (t : Touch) : Prop := 0 ≤ t.place ∧ t.place + t.data.length ≤ len

def toWrite (t : Touch) : Write UInt8 := Cursor.placed t.place t.data

/-- A patch overlaps no other patch and no sequential write after it. -/
def Apart (ts : List Touch) : Prop := ts.Pairwise fun t t' => t.patch → t.toWrite.Apart t'.toWrite

end Touch

section
variable {overflow : Overflow} {host : Endian} {c : Cursor} {e : Edit} {es : List Edit} {pos : ℤ}

theorem perform_patch {offset : ℤ} (patch : e.offset? = some offset) :
    e.perform overflow host = patchBytes overflow offset (e.data host) := by
  cases e with
  | write | writeNum => simp [Edit.offset?] at patch
  | patchBytes o data =>
    obtain rfl := Option.some.inj patch
    rfl
  | patchNum endian f o src =>
    obtain rfl := Option.some.inj patch
    exact patch_num_wire src

theorem perform_write (sequential : e.offset? = none) :
    e.perform overflow host = Cursor.write (e.data host) := by
  cases e with
  | write data => rfl
  | writeNum endian f src => exact write_num_wire src
  | patchBytes | patchNum => simp [Edit.offset?] at sequential

theorem perform_run (valid : c.Valid) (room : (Touch.of host c.pos e).InRange c.len) :
    e.perform overflow host c =
      .ok () { bytes := (Touch.of host c.pos e).toWrite.onto c.bytes, pos := e.next host c.pos } := by
  obtain ⟨nonneg, room⟩ := room
  unfold Touch.of at nonneg room ⊢
  unfold Touch.toWrite Edit.next Edit.patches
  cases patch : e.offset? with
  | none =>
    rw [patch, Option.getD_none] at room
    rw [perform_write patch, Cursor.write_fits valid room]
    rfl
  | some offset =>
    rw [patch, Option.getD_some] at nonneg room
    rw [perform_patch patch, patch_fits valid nonneg room]
    rfl

theorem perform_valid (valid : c.Valid) (room : (Touch.of host c.pos e).InRange c.len) :
    Cursor.Valid ⟨(Touch.of host c.pos e).toWrite.onto c.bytes, e.next host c.pos⟩ ∧
      Cursor.len ⟨(Touch.of host c.pos e).toWrite.onto c.bytes, e.next host c.pos⟩ = c.len := by
  obtain ⟨nonneg, room⟩ := room
  have pos := valid.nonneg
  have le_len := valid.le_len
  have small := valid.small
  have same : Cursor.len ⟨(Touch.of host c.pos e).toWrite.onto c.bytes, e.next host c.pos⟩ = c.len :=
    congrArg Nat.cast (Write.length_onto (Cursor.placed_fits nonneg room))
  refine ⟨⟨?_, ?_, same.trans_lt small⟩, same⟩
  · show 0 ≤ e.next host c.pos
    unfold Edit.next
    split <;> omega
  · rw [same]
    show e.next host c.pos ≤ c.len
    unfold Touch.of at room
    unfold Edit.next Edit.patches
    cases patch : e.offset? with
    | none =>
      rw [patch, Option.getD_none] at room
      simpa using room
    | some offset => simpa using le_len

/-- In range, a run is the writes of its trace. -/
theorem run_edits (valid : c.Valid) (room : ∀ t ∈ Touch.trace host c.pos es, t.InRange c.len) :
    Edit.runAll overflow host es c = .ok () {
      bytes := Write.all ((Touch.trace host c.pos es).map Touch.toWrite) c.bytes,
      pos := es.foldl (Edit.next host) c.pos } := by
  induction es generalizing c with
  | nil => rfl
  | cons e es ih =>
    have here : (Touch.of host c.pos e).InRange c.len := room _ (.head _)
    obtain ⟨valid', same⟩ := perform_valid valid here
    have later : ∀ t ∈ Touch.trace host (e.next host c.pos) es, t.InRange
        (Cursor.len ⟨(Touch.of host c.pos e).toWrite.onto c.bytes, e.next host c.pos⟩) := by
      intro t mem
      rw [same]
      exact room t (.tail _ mem)
    rw [Edit.runAll, Program.bind_ok (perform_run valid here)]
    exact ih valid' later

/-! The trace of the sequential writes, then of the patches. -/

theorem trace_append {es' : List Edit} : Touch.trace host pos (es ++ es') =
    Touch.trace host pos es ++ Touch.trace host (es.foldl (Edit.next host) pos) es' := by
  induction es generalizing pos with
  | nil => rfl
  | cons e es ih => rw [List.cons_append, Touch.trace, ih, Touch.trace, List.foldl_cons, List.cons_append]

theorem next_patch (patch : e.patches) : e.next host pos = pos := if_pos patch

theorem of_patch (patch : e.patches) : Touch.of host pos e = Touch.of host 0 e := by
  obtain ⟨offset, patch⟩ := Option.isSome_iff_exists.mp patch
  rw [Touch.of, Touch.of, patch, Option.getD_some, Option.getD_some]

theorem foldl_patches (patches : ∀ e ∈ es, e.patches) : es.foldl (Edit.next host) pos = pos := by
  induction es with
  | nil => rfl
  | cons e es ih =>
    rw [List.foldl_cons, next_patch (patches e (.head _))]
    exact ih fun e' mem => patches e' (.tail _ mem)

theorem trace_patches (patches : ∀ e ∈ es, e.patches) :
    Touch.trace host pos es = es.map (Touch.of host 0) := by
  induction es with
  | nil => rfl
  | cons e es ih =>
    have patch := patches e (.head _)
    rw [Touch.trace, next_patch patch, ih fun e' mem => patches e' (.tail _ mem), of_patch patch,
      List.map_cons]

theorem filter_patches : (Touch.trace host pos es).filter Touch.patch =
    (es.filter Edit.patches).map (Touch.of host 0) := by
  induction es generalizing pos with
  | nil => rfl
  | cons e es ih =>
    rw [Touch.trace, List.filter_cons, List.filter_cons, ih]
    show (if e.patches then _ else _) = _
    split_ifs with patch
    · rw [of_patch patch, List.map_cons]
    · rfl

theorem filter_writes : (Touch.trace host pos es).filter (fun t => !t.patch) =
    Touch.trace host pos (es.filter fun e => !e.patches) := by
  induction es generalizing pos with
  | nil => rfl
  | cons e es ih =>
    rw [Touch.trace, List.filter_cons, List.filter_cons, ih]
    show (if (!e.patches) = true then _ else _) = _
    split_ifs with sequential
    · rw [Touch.trace]
    · have patch : e.patches := by simpa using sequential
      rw [next_patch patch]

theorem foldl_writes : (es.filter fun e => !e.patches).foldl (Edit.next host) pos =
    es.foldl (Edit.next host) pos := by
  induction es generalizing pos with
  | nil => rfl
  | cons e es ih =>
    rw [List.filter_cons]
    split_ifs with sequential
    · rw [List.foldl_cons, List.foldl_cons, ih]
    · have patch : e.patches := by simpa using sequential
      rw [List.foldl_cons, next_patch patch, ih]

/-- The writes in order and then the patches in any order leave the same. -/
theorem run_postponed (valid : c.Valid) (room : ∀ t ∈ Touch.trace host c.pos es, t.InRange c.len)
    (apart : Touch.Apart (Touch.trace host c.pos es)) {order : List Edit}
    (perm : order.Perm (es.filter Edit.patches)) :
    Edit.runAll overflow host ((es.filter fun e => !e.patches) ++ order) c =
      Edit.runAll overflow host es c := by
  have patches : ∀ e ∈ order, e.patches := fun e mem => (List.mem_filter.mp (perm.mem_iff.mp mem)).2
  have writes := @filter_writes host es c.pos
  -- the patches of the trace, in the new order
  have reordered : ((Touch.trace host c.pos es).filter Touch.patch).Perm (order.map (Touch.of host 0)) := by
    rw [filter_patches]
    exact (perm.map _).symm
  have trace : Touch.trace host c.pos ((es.filter fun e => !e.patches) ++ order) =
      (Touch.trace host c.pos es).filter (fun t => !t.patch) ++ order.map (Touch.of host 0) := by
    rw [trace_append, ← writes, trace_patches patches]
  have room' : ∀ t ∈ Touch.trace host c.pos ((es.filter fun e => !e.patches) ++ order), t.InRange c.len := by
    intro t mem
    rw [trace] at mem
    rcases List.mem_append.mp mem with mem | mem
    · exact room t (List.mem_filter.mp mem).1
    · exact room t (List.mem_filter.mp (reordered.mem_iff.mpr mem)).1
  have fits : ∀ {ts : List Touch}, (∀ t ∈ ts, t.InRange c.len) →
      ∀ w ∈ ts.map Touch.toWrite, w.Fits c.bytes.length := by
    intro ts inRange w mem
    obtain ⟨t, among, rfl⟩ := List.mem_map.mp mem
    exact Cursor.placed_fits (inRange t among).1 (inRange t among).2
  have disjoint : (((Touch.trace host c.pos es).filter Touch.patch).map Touch.toWrite).Pairwise Write.Apart := by
    refine List.pairwise_map.mpr (List.Pairwise.imp_of_mem ?_ (apart.filter _))
    intro t t' mem _ apart
    exact apart (List.mem_filter.mp mem).2
  rw [run_edits valid room', run_edits valid room, List.foldl_append, foldl_patches patches, foldl_writes]
  congr 2
  apply Write.all_congr (fits room') (fits room)
  intro j
  rw [trace, List.map_append, Write.last_append, Write.last_postponed Touch.toWrite Touch.patch apart,
    Write.last_append, Write.last_perm (reordered.map _) disjoint]

/-- A patch replaces its range and nothing else, and can be put off to the end of a run. -/
theorem patches_postponed (valid : c.Valid) :
    (∀ offset data, 0 ≤ offset → offset + data.length ≤ c.len → ∃ c',
      patchBytes overflow offset data c = .ok () c' ∧ c'.tell = c.tell ∧ c.Replaced offset data c') ∧
    (∀ (host endian : Endian) (f : Field) (src : Object f.type), ∃ data, data.length = f.bytes ∧
      writeNum host endian f src = Cursor.write data ∧
      ∀ offset, patchNum overflow host endian f offset src = patchBytes overflow offset data) ∧
    ∀ host es, (∀ t ∈ Touch.trace host c.tell es, t.InRange c.len) →
      Touch.Apart (Touch.trace host c.tell es) → ∃ c', Edit.runAll overflow host es c = .ok () c' ∧
        ∀ order : List Edit, order.Perm (es.filter Edit.patches) →
          Edit.runAll overflow host ((es.filter fun e => !e.patches) ++ order) c = .ok () c' := by
  refine ⟨?_, ?_, ?_⟩
  · intro offset data nonneg room
    exact ⟨_, patch_fits valid nonneg room, rfl, Cursor.replaced_onto nonneg room _⟩
  · intro host endian f src
    exact ⟨wire endian f (src.number host), length_wire _ _ _, write_num_wire src,
      fun offset => patch_num_wire src⟩
  · intro host es room apart
    refine ⟨_, run_edits valid room, ?_⟩
    intro order perm
    rw [run_postponed valid room apart perm, run_edits valid room]

/-- A header is reserved and filled in at the end, a byte behind the data early. -/
theorem patches_postponed_header : ∃ c',
    Edit.runAll .wraps .LE [.write [0], .patchBytes 2 [7], .write [5], .patchBytes 0 [2]]
      { bytes := [1, 1, 1] } = .ok () c' ∧
    Edit.runAll .wraps .LE [.write [0], .write [5], .patchBytes 0 [2], .patchBytes 2 [7]]
      { bytes := [1, 1, 1] } = .ok () c' := by
  have valid : Cursor.Valid { bytes := [1, 1, 1] } := ⟨by decide, by decide, by decide⟩
  obtain ⟨-, -, run⟩ := @patches_postponed .wraps _ valid
  obtain ⟨c', done, reordered⟩ := run .LE [.write [0], .patchBytes 2 [7], .write [5], .patchBytes 0 [2]]
    (by simp [Touch.trace, Touch.of, Touch.InRange, Edit.next, Edit.patches, Edit.offset?, Edit.data,
      Cursor.len, Cursor.tell])
    (by
      simp only [Touch.Apart, Touch.trace, Touch.of, Touch.toWrite, Cursor.placed, Write.Apart,
        Write.Covers, Edit.next, Edit.patches, Edit.offset?, Edit.data, Cursor.tell]
      simp
      constructor <;> intro j <;> omega)
  exact ⟨c', done, reordered [.patchBytes 0 [2], .patchBytes 2 [7]] (List.Perm.swap _ _ _)⟩

end
end Celestite
