import Mathlib.Algebra.GroupWithZero.Nat
import Mathlib.Data.List.GetD
import CudaMpqs.Foundation.ThreadLoops
import CudaMpqs.Foundation.Transition

/-! # Streams of rows

Rows are encoded one after the other at the end of a stream. An offset is written down before
each row and after the last one, and a row is read back between two offsets. -/

namespace CudaMpqs.RowStreams

open ThreadLoops Transition

/-! ## Offsets -/

section Offsets

variable {State Row : Type} (position : State → Nat) (step : State → Row → State)

def offsets : State → List Row → List Nat
  | state, [] => [position state % 2 ^ 32]
  | state, row :: rows => position state % 2 ^ 32 :: offsets (step state row) rows

theorem getD_offsets (state : State) {rows : List Row} {r : Nat} (inside : r ≤ rows.length) :
    (offsets position step state rows).getD r 0 =
      position (run step state (rows.take r)) % 2 ^ 32 := by
  induction rows generalizing state r with
  | nil =>
    obtain rfl : r = 0 := by simpa using inside
    rfl
  | cons row rows induction =>
    cases r with
    | zero => rfl
    | succ r => exact induction (step state row) (by simpa using inside)

/-- Row `r` is encoded between its two offsets, and the rest after it. -/
theorem run_split (state : State) {rows : List Row} {r : Nat} (inside : r < rows.length) :
    run step state rows =
      run step (step (run step state (rows.take r)) rows[r]) (rows.drop (r + 1)) := by
  calc run step state rows
      = run step state (rows.take r ++ rows[r] :: rows.drop (r + 1)) := by
        rw [← List.drop_eq_getElem_cons inside, List.take_append_drop]
    _ = _ := by rw [run_append, run_cons]

theorem run_take_succ (state : State) {rows : List Row} {r : Nat} (inside : r < rows.length) :
    run step state (rows.take (r + 1)) = step (run step state (rows.take r)) rows[r] := by
  rw [List.take_succ_eq_append_getElem inside, run_append]
  rfl

end Offsets

/-! ## Streams that grow -/

section Growth

variable {State Row : Type} {position : State → Nat} {step : State → Row → State}

private theorem position_run_le (grows : ∀ state row, position state ≤ position (step state row))
    (state : State) (rows : List Row) : position state ≤ position (run step state rows) :=
  @run_invariant _ _ step (fun current => position state ≤ position current)
    (fun current row above => above.trans (grows current row)) state le_rfl rows

/-- The offsets around a row, where the last position fits 32 bits. -/
theorem offsets_around (grows : ∀ state row, position state ≤ position (step state row))
    (state : State) {rows : List Row} (fits : position (run step state rows) < 2 ^ 32) {r : Nat}
    (inside : r < rows.length) :
    (offsets position step state rows).getD r 0 = position (run step state (rows.take r)) ∧
      (offsets position step state rows).getD (r + 1) 0 =
        position (step (run step state (rows.take r)) rows[r]) := by
  have split := run_split step state inside
  have later := position_run_le grows (step (run step state (rows.take r)) rows[r])
    (rows.drop (r + 1))
  rw [← split] at later
  have own := grows (run step state (rows.take r)) rows[r]
  rw [getD_offsets _ _ _ inside.le, getD_offsets _ _ _ inside, run_take_succ _ _ inside]
  exact ⟨Nat.mod_eq_of_lt (by omega), Nat.mod_eq_of_lt (by omega)⟩

/-- A position that passes 32 bits passes them inside one row. -/
theorem exists_crossing {state : State} (small : position state < 2 ^ 32) {rows : List Row}
    (large : 2 ^ 32 ≤ position (run step state rows)) : ∃ r < rows.length,
      position (run step state (rows.take r)) < 2 ^ 32 ∧
        2 ^ 32 ≤ position (run step state (rows.take (r + 1))) := by
  induction rows generalizing state with
  | nil => exact absurd small (not_lt.mpr large)
  | cons row rows induction =>
    by_cases next : position (step state row) < 2 ^ 32
    · rcases induction next large with ⟨r, inside, before, after⟩
      exact ⟨r + 1, Nat.succ_lt_succ inside, before, after⟩
    · exact ⟨0, Nat.succ_pos _, small, not_lt.mp next⟩

theorem getD_replicate_append (skipped : Nat) (entries : List Nat) (r : Nat) :
    (List.replicate skipped 0 ++ entries).getD (skipped + r) 0 = entries.getD r 0 := by
  rw [List.getD_append_right _ _ _ _ (by simp), List.length_replicate, Nat.add_sub_cancel_left]

end Growth

/-! ## Windows of an array -/

section Windows

variable {α : Type}

def window (array : Nat → α) (start stop : Nat) : List α :=
  (List.range (stop - start)).map fun k => array (start + k)

theorem window_append (before added after : List α) (default : α) :
    window (fun i => (before ++ added ++ after).getD i default) before.length
      (before.length + added.length) = added := by
  apply List.ext_getElem
  · simp [window]
  · intro k inside _
    have below : k < added.length := by simpa [window] using inside
    simp only [window, List.getElem_map, List.getElem_range, List.append_assoc]
    rw [List.getD_append_right _ _ _ _ (Nat.le_add_right _ _), Nat.add_sub_cancel_left,
      List.getD_append _ _ _ _ below, List.getD_eq_getElem _ _ below]

theorem window_eq_nil (array : Nat → α) {start stop : Nat} (empty : stop ≤ start) :
    window array start stop = [] := by
  rw [window, Nat.sub_eq_zero_of_le empty, List.range_zero, List.map_nil]

end Windows

/-! ## Appended rows -/

section Appending

variable {Row α : Type} (encode : Row → List α)

def push (stream : List α) (row : Row) : List α := stream ++ encode row

theorem run_push (stream : List α) (rows : List Row) :
    run (push encode) stream rows = stream ++ rows.flatMap encode := by
  induction rows generalizing stream with
  | nil => rw [run_nil, List.flatMap_nil, List.append_nil]
  | cons row rows induction =>
    rw [run_cons, induction, push, List.flatMap_cons, List.append_assoc]

private theorem length_le_push (stream : List α) (row : Row) :
    stream.length ≤ (push encode stream row).length := by
  rw [push, List.length_append]
  exact Nat.le_add_right _ _

theorem window_run_push {rows : List Row}
    (fits : (run (push encode) [] rows).length < 2 ^ 32) {r : Nat} (inside : r < rows.length)
    (default : α) :
    window (fun i => (run (push encode) [] rows).getD i default)
      ((offsets List.length (push encode) [] rows).getD r 0)
      ((offsets List.length (push encode) [] rows).getD (r + 1) 0) = encode rows[r] := by
  rcases offsets_around (length_le_push encode) [] fits inside with ⟨start, stop⟩
  rw [start, stop, run_split _ _ inside, run_push encode (push encode _ _), push,
    List.length_append]
  exact window_append _ _ _ default

theorem length_run_push (stream : List α) (rows : List Row) :
    (run (push encode) stream rows).length =
      stream.length + (rows.map fun row => (encode row).length).sum := by
  rw [run_push, List.length_append, List.length_flatMap]

/-- Where the stream passes 32 bits, the offsets leave nothing of the row that it passes them
in. -/
theorem exists_window_eq_nil {rows : List Row} (short : ∀ row ∈ rows, (encode row).length < 2 ^ 32)
    (large : 2 ^ 32 ≤ (run (push encode) [] rows).length) :
    ∃ r, ∃ inside : r < rows.length, encode rows[r] ≠ [] ∧ ∀ array : Nat → α,
      window array ((offsets List.length (push encode) [] rows).getD r 0)
        ((offsets List.length (push encode) [] rows).getD (r + 1) 0) = [] := by
  rcases exists_crossing (by rw [List.length_nil]; decide) large with ⟨r, inside, before, after⟩
  have own := short rows[r] (List.getElem_mem inside)
  have length := congrArg List.length (run_take_succ (push encode) [] inside)
  rw [push, List.length_append] at length
  refine ⟨r, inside, fun empty => ?_, fun array => window_eq_nil array ?_⟩
  · rw [empty, List.length_nil] at length
    omega
  · have next : r + 1 ≤ rows.length := inside
    rw [getD_offsets _ _ _ inside.le, getD_offsets _ _ _ next]
    omega

end Appending

/-! ## Rows stored side by side -/

section Storing

variable {α : Type}

def windowStores (entries : Nat → List α) (offset : Nat → Nat) (rows : Nat) : List (Nat × α) :=
  (List.range rows).flatMap fun r =>
    (entries r).zipIdx.map fun entry => ((offset r + entry.2) % 2 ^ 32, entry.1)

variable {entries : Nat → List α} {offset : Nat → Nat} {rows : Nat}

theorem mem_windowStores {store : Nat × α} : store ∈ windowStores entries offset rows ↔
    ∃ r < rows, ∃ k, (entries r)[k]? = some store.2 ∧ store.1 = (offset r + k) % 2 ^ 32 := by
  simp only [windowStores, List.mem_flatMap, List.mem_range, List.mem_map, Prod.exists,
    List.mk_mem_zipIdx_iff_getElem?]
  constructor
  · rintro ⟨r, inside, entry, k, held, rfl⟩
    exact ⟨r, inside, k, held, rfl⟩
  · rintro ⟨r, inside, k, held, index⟩
    exact ⟨r, inside, store.2, k, held, by rw [← index]⟩

private theorem offset_le_of_contiguous
    (contiguous : ∀ r < rows, offset (r + 1) = offset r + (entries r).length) {r s : Nat}
    (order : r ≤ s) (inside : s ≤ rows) : offset r ≤ offset s := by
  induction s, order using Nat.le_induction with
  | base => exact le_rfl
  | succ s _ induction =>
    rw [contiguous s inside]
    exact (induction (Nat.le_of_succ_le inside)).trans (Nat.le_add_right _ _)

/-- Rows that lie side by side are all read back, whatever the order of the threads. -/
theorem window_of_stored (contiguous : ∀ r < rows, offset (r + 1) = offset r + (entries r).length)
    (fits : offset rows < 2 ^ 32) {before after : Nat → α}
    (stored : Stored (windowStores entries offset rows) before after) {r : Nat}
    (inside : r < rows) :
    window after (offset r) (offset (r + 1)) = entries r := by
  have place : ∀ s < rows, offset s + (entries s).length ≤ offset rows := fun s below => by
    rw [← contiguous s below]
    exact offset_le_of_contiguous contiguous below le_rfl
  have own := place r inside
  rw [contiguous r inside]
  apply List.ext_getElem
  · simp [window]
  · intro k left right
    simp only [window, List.getElem_map, List.getElem_range]
    have held : (entries r)[k]? = some (entries r)[k] := List.getElem?_eq_getElem right
    have index : offset r + k = (offset r + k) % 2 ^ 32 := (Nat.mod_eq_of_lt (by omega)).symm
    refine stored.of_mem (mem_windowStores.mpr ⟨r, inside, k, held, index⟩) fun store member same =>
      ?_
    rcases mem_windowStores.mp member with ⟨s, below, j, other, found⟩
    have short := (List.getElem?_eq_some_iff.mp other).1
    have bound := place s below
    rw [Nat.mod_eq_of_lt (by omega)] at found
    have row : s = r := by
      -- A store of another row lies before or after the whole of row `r`.
      rcases Nat.lt_trichotomy s r with earlier | equal | later
      · have ends := offset_le_of_contiguous contiguous (Nat.succ_le_of_lt earlier) inside.le
        rw [contiguous s below] at ends
        omega
      · exact equal
      · have starts := offset_le_of_contiguous contiguous (Nat.succ_le_of_lt later) below.le
        rw [contiguous r inside] at starts
        omega
    subst row
    obtain rfl : j = k := by omega
    rw [held] at other
    exact (Option.some_inj.mp other).symm

end Storing

end CudaMpqs.RowStreams
