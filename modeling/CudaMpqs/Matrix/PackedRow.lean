import Mathlib.Algebra.Field.ZMod
import CudaMpqs.Common.Montgomery
import CudaMpqs.Common.Relation

/-! # Packed rows

A row of the packed matrix: its columns with 8-bit exponents, and the square root,
the sign, the power of two and the branch characters of the relations in it. -/

namespace CudaMpqs

open SortedMerge Relation

abbrev PackedEntry := Nat × BitVec 8

structure PackedRow where
  entries : List PackedEntry
  sqrtQ : UInt512
  sign : BitVec 8
  val2Exp : BitVec 32
  charBits : BitVec 32
deriving DecidableEq

def oddExp (entry : PackedEntry) : Bool := entry.2.getLsbD 0

namespace PackedRow

def kMaxLocalBufEntries : Nat := 128

def join (mont : Montgomery) (left right : PackedRow) : PackedRow where
  entries := merge (· + ·) left.entries right.entries
  sqrtQ := mont.reduce (mont.mul (mont.transform left.sqrtQ) (mont.transform right.sqrtQ))
  sign := combineSign left.sign right.sign
  val2Exp := left.val2Exp + right.val2Exp
  charBits := left.charBits ^^^ right.charBits

def mergeRows (mont : Montgomery) (left right : PackedRow) : Option PackedRow :=
  (mergeInto (· + ·) kMaxLocalBufEntries left.entries right.entries).map fun buffer =>
    { join mont left right with entries := buffer }

def Fits (left right : PackedRow) : Prop :=
  (merge (· + ·) left.entries right.entries).length ≤ kMaxLocalBufEntries

instance (left right : PackedRow) : Decidable (Fits left right) :=
  inferInstanceAs (Decidable (_ ≤ _))

theorem mergeRows_eq (mont : Montgomery) (left right : PackedRow) :
    mergeRows mont left right = if Fits left right then some (join mont left right) else none := by
  rw [mergeRows, mergeInto_eq]
  by_cases fits : Fits left right
  · rw [if_pos fits, if_pos (show _ ≤ _ from fits)]
    rfl
  · rw [if_neg fits, if_neg (show ¬ _ ≤ _ from fits)]
    rfl

/-! ## Weights and parities -/

def entryCount (c : Nat) (row : PackedRow) : Nat := row.entries.countP (·.1 == c)

def oddCount (c : Nat) (row : PackedRow) : Nat :=
  row.entries.countP fun entry => entry.1 == c && oddExp entry

def parity (row : PackedRow) (c : Nat) : ZMod 2 :=
  (row.entries.map fun entry => if entry.1 = c then (entry.2.toNat : ZMod 2) else 0).sum

def Ascending (row : PackedRow) : Prop := SortedMerge.Ascending row.entries

instance (row : PackedRow) : Decidable row.Ascending :=
  inferInstanceAs (Decidable (SortedMerge.Ascending _))

theorem natCast_toNat_add (left right : BitVec 8) :
    ((left + right).toNat : ZMod 2) = left.toNat + right.toNat := by
  rw [BitVec.toNat_add, ← Nat.cast_add, ZMod.natCast_eq_natCast_iff]
  exact Nat.mod_mod_of_dvd _ (by decide)

theorem parity_join (mont : Montgomery) (left right : PackedRow) :
    (join mont left right).parity = left.parity + right.parity := by
  funext c
  rw [Pi.add_apply, parity, parity, parity, join]
  exact sum_merge _ _ _ _ fun key value value' _ _ => by
    by_cases isColumn : key = c
    · simp only [if_pos isColumn, natCast_toNat_add]
    · simp only [if_neg isColumn, add_zero]

theorem ascending_join (mont : Montgomery) {left right : PackedRow} (leftAscending : left.Ascending)
    (rightAscending : right.Ascending) : (join mont left right).Ascending :=
  ascending_merge leftAscending rightAscending

theorem forall_col_join (mont : Montgomery) {Good : Nat → Prop} {left right : PackedRow}
    (goodLeft : ∀ entry ∈ left.entries, Good entry.1)
    (goodRight : ∀ entry ∈ right.entries, Good entry.1) :
    ∀ entry ∈ (join mont left right).entries, Good entry.1 :=
  forall_key_merge goodLeft goodRight

private theorem cast_exponent (entry : PackedEntry) :
    ((entry.2.toNat : Nat) : ZMod 2) = if oddExp entry then 1 else 0 := by
  rw [oddExp]
  generalize entry.2 = exponent
  revert exponent
  decide

theorem parity_eq_oddCount (row : PackedRow) (c : Nat) : row.parity c = (row.oddCount c : Nat) := by
  rw [parity, oddCount]
  induction row.entries with
  | nil => rfl
  | cons entry entries induction =>
    rw [List.map_cons, List.sum_cons, induction, List.countP_cons, cast_exponent]
    cases oddExp entry <;> by_cases isColumn : entry.1 = c <;> simp [isColumn, add_comm]

theorem Ascending.oddCount_le {row : PackedRow} (ascending : row.Ascending) (c : Nat) :
    row.oddCount c ≤ 1 := by
  have counted : row.oddCount c ≤ (keys row.entries).count c := by
    rw [oddCount, keys, List.count, List.countP_map]
    apply List.countP_mono_left
    intro entry _ selected
    rw [Bool.and_eq_true] at selected
    exact selected.1
  exact counted.trans (List.nodup_iff_count_le_one.mp ascending.nodup_keys c)

end PackedRow

end CudaMpqs
