import Mathlib.Data.Finset.SDiff
import Mathlib.Data.Finset.Lattice.Lemmas

/-! # Keeping the first item of every key

A filter that remembers the keys it has seen. The kept items depend on the order of
the input, their keys do not. -/

namespace CudaMpqs.FirstByKey

variable {Item Key : Type} [DecidableEq Key] {key : Item → Key}

def keysOf (key : Item → Key) (items : List Item) : Finset Key := (items.map key).toFinset

def firstByKey (key : Item → Key) : Finset Key → List Item → List Item
  | _, [] => []
  | seen, item :: items =>
    if key item ∈ seen then firstByKey key seen items
    else item :: firstByKey key (insert (key item) seen) items

@[simp] theorem keysOf_nil : keysOf key [] = ∅ := rfl

@[simp] theorem keysOf_cons (item : Item) (items : List Item) :
    keysOf key (item :: items) = insert (key item) (keysOf key items) := by
  simp [keysOf]

theorem keysOf_append (left right : List Item) :
    keysOf key (left ++ right) = keysOf key left ∪ keysOf key right := by
  simp [keysOf]

theorem keysOf_perm {left right : List Item} (perm : left.Perm right) :
    keysOf key left = keysOf key right :=
  List.toFinset_eq_of_perm _ _ (perm.map key)

theorem firstByKey_append (seen : Finset Key) (left right : List Item) :
    firstByKey key seen (left ++ right) =
      firstByKey key seen left ++ firstByKey key (seen ∪ keysOf key left) right := by
  induction left generalizing seen with
  | nil => simp [firstByKey]
  | cons item items induction =>
    by_cases known : key item ∈ seen
    · have same : seen ∪ insert (key item) (keysOf key items) = seen ∪ keysOf key items := by
        rw [Finset.union_insert, Finset.insert_eq_of_mem (Finset.mem_union_left _ known)]
      simp [firstByKey, known, induction, same]
    · simp [firstByKey, known, induction]

theorem keysOf_firstByKey (seen : Finset Key) (items : List Item) :
    keysOf key (firstByKey key seen items) = keysOf key items \ seen := by
  induction items generalizing seen with
  | nil => simp [firstByKey]
  | cons item items induction =>
    by_cases known : key item ∈ seen
    · simp [firstByKey, known, induction, Finset.insert_sdiff_of_mem]
    · rw [firstByKey, if_neg known, keysOf_cons, keysOf_cons, induction,
        Finset.insert_sdiff_of_notMem _ known]
      ext other
      by_cases same : other = key item <;> simp [same]

theorem firstByKey_nodup (seen : Finset Key) (items : List Item) :
    ((firstByKey key seen items).map key).Nodup := by
  induction items generalizing seen with
  | nil => exact List.nodup_nil
  | cons item items induction =>
    rw [firstByKey]
    split
    · exact induction seen
    · rw [List.map_cons, List.nodup_cons]
      refine ⟨?_, induction _⟩
      intro member
      have kept : key item ∈ keysOf key
          (firstByKey key (insert (key item) seen) items) := by simpa [keysOf] using member
      rw [keysOf_firstByKey] at kept
      simp at kept

theorem firstByKey_concat (items : List Item) (item : Item) : firstByKey key ∅ (items ++ [item]) =
      if key item ∈ keysOf key items then firstByKey key ∅ items
      else firstByKey key ∅ items ++ [item] := by
  rw [firstByKey_append]
  by_cases known : key item ∈ keysOf key items <;> simp [firstByKey, known]

end CudaMpqs.FirstByKey
