import Mathlib.Data.List.Pairwise
import Mathlib.Data.Finset.Card
import Mathlib.Order.Nat
import Mathlib.Algebra.BigOperators.Group.List.Basic
import Mathlib.Algebra.Group.TypeTags.Basic

/-! # Merging key-sorted association lists

Lists of `(key, value)` pairs with strictly ascending keys, merged in one pass
that combines the values of a shared key. -/

namespace CudaMpqs.SortedMerge

variable {κ β : Type} [LinearOrder κ]

def Ascending (entries : List (κ × β)) : Prop :=
  entries.Pairwise fun left right => left.1 < right.1

instance (entries : List (κ × β)) : Decidable (Ascending entries) :=
  inferInstanceAs (Decidable (entries.Pairwise _))

def merge (combine : β → β → β) : List (κ × β) → List (κ × β) → List (κ × β)
  | [], right => right
  | left, [] => left
  | (key, value) :: left, (key', value') :: right =>
    if key < key' then
      (key, value) :: merge combine left ((key', value') :: right)
    else if key' < key then
      (key', value') :: merge combine ((key, value) :: left) right
    else (key, combine value value') :: merge combine left right
termination_by left right => left.length + right.length

def mergeUpTo (combine : β → β → β) : Nat → List (κ × β) → List (κ × β) → List (κ × β)
  | 0, _, _ => []
  | _ + 1, [], [] => []
  | capacity + 1, entry :: left, [] =>
    entry :: mergeUpTo combine capacity left []
  | capacity + 1, [], entry :: right =>
    entry :: mergeUpTo combine capacity [] right
  | capacity + 1, (key, value) :: left, (key', value') :: right =>
    if key < key' then
      (key, value) :: mergeUpTo combine capacity left ((key', value') :: right)
    else if key' < key then
      (key', value') :: mergeUpTo combine capacity ((key, value) :: left) right
    else (key, combine value value') :: mergeUpTo combine capacity left right

def mergeInto (combine : β → β → β) : Nat → List (κ × β) → List (κ × β) → Option (List (κ × β))
  | _, [], [] => some []
  | 0, _, _ => none
  | capacity + 1, entry :: left, [] =>
    (mergeInto combine capacity left []).map (entry :: ·)
  | capacity + 1, [], entry :: right =>
    (mergeInto combine capacity [] right).map (entry :: ·)
  | capacity + 1, (key, value) :: left, (key', value') :: right =>
    if key < key' then
      (mergeInto combine capacity left ((key', value') :: right)).map ((key, value) :: ·)
    else if key' < key then
      (mergeInto combine capacity ((key, value) :: left) right).map ((key', value') :: ·)
    else (mergeInto combine capacity left right).map ((key, combine value value') :: ·)

@[simp] theorem merge_nil_left (combine : β → β → β) (right : List (κ × β)) :
    merge combine [] right = right := by
  rw [merge]

@[simp] theorem merge_nil_right (combine : β → β → β) (left : List (κ × β)) :
    merge combine left [] = left := by
  cases left <;> simp [merge]

theorem mergeUpTo_eq_take (combine : β → β → β) : ∀ (capacity : Nat) (left right : List (κ × β)),
      mergeUpTo combine capacity left right = (merge combine left right).take capacity
  | 0, _, _ => by simp [mergeUpTo]
  | _ + 1, [], [] => by simp [mergeUpTo]
  | capacity + 1, entry :: left, [] => by
    have rest := mergeUpTo_eq_take combine capacity left []
    rw [mergeUpTo, rest, merge_nil_right, merge_nil_right, List.take_succ_cons]
  | capacity + 1, [], entry :: right => by
    have rest := mergeUpTo_eq_take combine capacity [] right
    rw [mergeUpTo, rest, merge_nil_left, merge_nil_left, List.take_succ_cons]
  | capacity + 1, (key, value) :: left, (key', value') :: right => by
    rw [mergeUpTo, merge]
    split
    · rw [List.take_succ_cons, mergeUpTo_eq_take]
    split
    · rw [List.take_succ_cons, mergeUpTo_eq_take]
    · rw [List.take_succ_cons, mergeUpTo_eq_take]

private theorem map_cons_guard (capacity : Nat) (entry : κ × β) (rest : List (κ × β)) :
    (if rest.length ≤ capacity then some rest else none).map (entry :: ·) =
      if (entry :: rest).length ≤ capacity + 1 then some (entry :: rest) else none := by
  simp only [List.length_cons, Nat.add_le_add_iff_right]
  split <;> rfl

theorem mergeInto_eq (combine : β → β → β) : ∀ (capacity : Nat) (left right : List (κ × β)),
      mergeInto combine capacity left right =
        if (merge combine left right).length ≤ capacity then some (merge combine left right)
        else none
  | capacity, [], [] => by simp [mergeInto]
  | 0, entry :: left, right => by
    have positive : (merge combine (entry :: left) right).length ≠ 0 := by
      cases right with
      | nil => simp
      | cons other right => rw [merge]; split_ifs <;> simp
    rw [mergeInto, if_neg (by omega)]
    nofun
  | 0, [], entry :: right => by simp [mergeInto]
  | capacity + 1, entry :: left, [] => by
    rw [mergeInto, mergeInto_eq, merge_nil_right, merge_nil_right, map_cons_guard]
  | capacity + 1, [], entry :: right => by
    rw [mergeInto, mergeInto_eq, merge_nil_left, merge_nil_left, map_cons_guard]
  | capacity + 1, (key, value) :: left, (key', value') :: right => by
    rw [mergeInto, merge]
    split
    · rw [mergeInto_eq, map_cons_guard]
    split
    · rw [mergeInto_eq, map_cons_guard]
    · rw [mergeInto_eq, map_cons_guard]

/-- A weight that turns `combine` into a product turns the merge into one. -/
theorem prod_merge {M : Type} [CommMonoid M] (combine : β → β → β)
    (weight : κ × β → M) (left right : List (κ × β))
    (multiplicative : ∀ key value value', (key, value) ∈ left → (key, value') ∈ right →
        weight (key, combine value value') = weight (key, value) * weight (key, value')) :
    ((merge combine left right).map weight).prod =
      (left.map weight).prod * (right.map weight).prod := by
  fun_induction merge combine left right with
  | case1 right => simp
  | case2 left notNil => simp
  | case3 key value left key' value' right less induction =>
    rw [List.map_cons, List.prod_cons, induction fun _ _ _ inLeft inRight =>
      multiplicative _ _ _ (List.mem_cons_of_mem _ inLeft) inRight]
    simp only [List.map_cons, List.prod_cons, mul_assoc]
  | case4 key value left key' value' right notLess greater induction =>
    rw [List.map_cons, List.prod_cons, induction fun _ _ _ inLeft inRight =>
      multiplicative _ _ _ inLeft (List.mem_cons_of_mem _ inRight)]
    simp only [List.map_cons, List.prod_cons, mul_assoc, mul_left_comm]
  | case5 key value left key' value' right notLess notGreater induction =>
    have sameKey : key = key' :=
      le_antisymm (not_lt.mp notGreater) (not_lt.mp notLess)
    subst sameKey
    rw [List.map_cons, List.prod_cons, induction fun _ _ _ inLeft inRight =>
      multiplicative _ _ _ (List.mem_cons_of_mem _ inLeft)
        (List.mem_cons_of_mem _ inRight),
      multiplicative key value value' (by simp) (by simp)]
    simp only [List.map_cons, List.prod_cons, mul_assoc, mul_left_comm]

theorem sum_merge {M : Type} [AddCommMonoid M] (combine : β → β → β)
    (weight : κ × β → M) (left right : List (κ × β))
    (additive : ∀ key value value', (key, value) ∈ left → (key, value') ∈ right →
      weight (key, combine value value') = weight (key, value) + weight (key, value')) :
    ((merge combine left right).map weight).sum = (left.map weight).sum + (right.map weight).sum :=
  prod_merge combine (fun entry => Multiplicative.ofAdd (weight entry)) left right additive

/-! ## Order -/

def keys (entries : List (κ × β)) : List κ := entries.map Prod.fst

theorem Ascending.head_lt {key : κ} {value : β} {rest : List (κ × β)}
    (ascending : Ascending ((key, value) :: rest)) :
    ∀ entry ∈ rest, key < entry.1 :=
  (List.pairwise_cons.mp ascending).1

theorem Ascending.tail {entry : κ × β} {rest : List (κ × β)}
    (ascending : Ascending (entry :: rest)) : Ascending rest :=
  (List.pairwise_cons.mp ascending).2

variable {entries : List (κ × β)}

theorem Ascending.nodup_keys (ascending : Ascending entries) : (keys entries).Nodup := by
  apply List.pairwise_map.mpr
  exact ascending.imp fun less => less.ne

variable {left right : List (κ × β)}

theorem forall_key_merge {combine : β → β → β} {Good : κ → Prop}
    (goodLeft : ∀ entry ∈ left, Good entry.1) (goodRight : ∀ entry ∈ right, Good entry.1) :
    ∀ entry ∈ merge combine left right, Good entry.1 := by
  fun_induction merge combine left right with
  | case1 right => exact goodRight
  | case2 left notNil => exact goodLeft
  | case3 key value left key' value' right less induction =>
    intro entry member
    rcases List.mem_cons.mp member with rfl | member
    · exact goodLeft _ (by simp)
    · exact induction (fun item inside => goodLeft item (by simp [inside]))
        goodRight entry member
  | case4 key value left key' value' right notLess greater induction =>
    intro entry member
    rcases List.mem_cons.mp member with rfl | member
    · exact goodRight _ (by simp)
    · exact induction goodLeft
        (fun item inside => goodRight item (by simp [inside])) entry member
  | case5 key value left key' value' right notLess notGreater induction =>
    intro entry member
    rcases List.mem_cons.mp member with rfl | member
    · exact goodLeft (key, value) (by simp)
    · exact induction (fun item inside => goodLeft item (by simp [inside]))
        (fun item inside => goodRight item (by simp [inside])) entry member

theorem ascending_merge {combine : β → β → β} (leftAscending : Ascending left)
    (rightAscending : Ascending right) : Ascending (merge combine left right) := by
  fun_induction merge combine left right with
  | case1 right => exact rightAscending
  | case2 left notNil => exact leftAscending
  | case3 key value left key' value' right less induction =>
    refine List.pairwise_cons.mpr
      ⟨?_, induction leftAscending.tail rightAscending⟩
    apply forall_key_merge leftAscending.head_lt
    intro entry member
    rcases List.mem_cons.mp member with rfl | member
    · exact less
    · exact less.trans (rightAscending.head_lt entry member)
  | case4 key value left key' value' right notLess greater induction =>
    refine List.pairwise_cons.mpr
      ⟨?_, induction leftAscending rightAscending.tail⟩
    refine forall_key_merge ?_ rightAscending.head_lt
    intro entry member
    rcases List.mem_cons.mp member with rfl | member
    · exact greater
    · exact greater.trans (leftAscending.head_lt entry member)
  | case5 key value left key' value' right notLess notGreater induction =>
    have sameKey : key = key' :=
      le_antisymm (not_lt.mp notGreater) (not_lt.mp notLess)
    subst sameKey
    exact List.pairwise_cons.mpr
      ⟨forall_key_merge leftAscending.head_lt rightAscending.head_lt,
        induction leftAscending.tail rightAscending.tail⟩

/-! ## Lookup -/

theorem lookup_eq_none_of_lt {key : κ} (above : ∀ entry ∈ entries, key < entry.1) :
    entries.lookup key = none := by
  apply List.lookup_eq_none_iff.mpr
  intro entry member
  have lt := above entry member
  simp [lt.ne]

theorem lookup_of_mem (ascending : Ascending entries) {key : κ} {value : β}
    (member : (key, value) ∈ entries) : entries.lookup key = some value := by
  induction entries with
  | nil => cases member
  | cons head tail induction =>
    rcases List.mem_cons.mp member with rfl | member
    · exact List.lookup_cons_self
    · have different : (key == head.1) = false :=
        beq_eq_false_iff_ne.mpr (ascending.head_lt _ member).ne'
      rw [List.lookup_cons, different]
      exact induction ascending.tail member

theorem mem_of_lookup {key : κ} {value : β} (found : entries.lookup key = some value) :
    (key, value) ∈ entries := by
  rcases List.lookup_eq_some_iff.mp found with ⟨before, after, rfl, -⟩
  simp

def combineOption (combine : β → β → β) : Option β → Option β → Option β
  | some value, some value' => some (combine value value')
  | some value, none => some value
  | none, value' => value'

theorem lookup_merge (combine : β → β → β) (target : κ) (leftAscending : Ascending left)
    (rightAscending : Ascending right) :
    (merge combine left right).lookup target =
      combineOption combine (left.lookup target) (right.lookup target) := by
  fun_induction merge combine left right with
  | case1 right => rfl
  | case2 left notNil => cases left.lookup target <;> rfl
  | case3 key value left key' value' right less induction =>
    have absent : ((key', value') :: right).lookup key = none := by
      apply lookup_eq_none_of_lt
      intro entry member
      rcases List.mem_cons.mp member with rfl | member
      · exact less
      · exact less.trans (rightAscending.head_lt entry member)
    by_cases found : target = key
    · subst found
      simp [absent, combineOption]
    · have different : (target == key) = false := beq_eq_false_iff_ne.mpr found
      simp only [List.lookup_cons, different] at induction ⊢
      exact induction leftAscending.tail rightAscending
  | case4 key value left key' value' right notLess greater induction =>
    have absent : ((key, value) :: left).lookup key' = none := by
      apply lookup_eq_none_of_lt
      intro entry member
      rcases List.mem_cons.mp member with rfl | member
      · exact greater
      · exact greater.trans (leftAscending.head_lt entry member)
    by_cases found : target = key'
    · subst found
      simp [absent, combineOption]
    · have different : (target == key') = false :=
        beq_eq_false_iff_ne.mpr found
      simp only [List.lookup_cons, different] at induction ⊢
      exact induction leftAscending rightAscending.tail
  | case5 key value left key' value' right notLess notGreater induction =>
    have sameKey : key = key' :=
      le_antisymm (not_lt.mp notGreater) (not_lt.mp notLess)
    subst sameKey
    by_cases found : target = key
    · subst found
      simp [combineOption]
    · have different : (target == key) = false := beq_eq_false_iff_ne.mpr found
      simp only [List.lookup_cons, different]
      exact induction leftAscending.tail rightAscending.tail

theorem mem_keys_iff_lookup (entries : List (κ × β)) (key : κ) :
    key ∈ keys entries ↔ (entries.lookup key).isSome := by
  rw [keys, List.mem_map, List.lookup_isSome_iff]
  constructor
  · rintro ⟨entry, member, rfl⟩
    exact ⟨entry, member, beq_self_eq_true _⟩
  · rintro ⟨entry, member, equal⟩
    exact ⟨entry, member, (beq_iff_eq.mp equal).symm⟩

theorem exists_dropped (ascending : Ascending entries) {capacity : Nat}
    (long : capacity < entries.length) :
    ∃ key, (entries.take capacity).lookup key = none ∧ key ∈ keys entries := by
  cases dropped : entries.drop capacity with
  | nil =>
    have short := List.drop_eq_nil_iff.mp dropped
    omega
  | cons entry rest =>
    have split := List.take_append_drop capacity entries
    rw [dropped] at split
    rw [Ascending, ← split] at ascending
    refine ⟨entry.1, ?_, ?_⟩
    · apply List.lookup_eq_none_iff.mpr
      intro item member
      have less := (List.pairwise_append.mp ascending).2.2 item member entry
        (by simp)
      exact bne_iff_ne.mpr less.ne'
    · rw [← split]
      simp [keys]

theorem length_merge (combine : β → β → β) (leftAscending : Ascending left)
    (rightAscending : Ascending right) :
    (merge combine left right).length = ((keys left).toFinset ∪ (keys right).toFinset).card := by
  have ascending : Ascending (merge combine left right) :=
    ascending_merge leftAscending rightAscending
  have sameKeys : (keys (merge combine left right)).toFinset =
      (keys left).toFinset ∪ (keys right).toFinset := by
    ext key
    rw [Finset.mem_union, List.mem_toFinset, List.mem_toFinset, List.mem_toFinset,
      mem_keys_iff_lookup, mem_keys_iff_lookup, mem_keys_iff_lookup,
      lookup_merge combine key leftAscending rightAscending]
    cases left.lookup key <;> cases right.lookup key <;> simp [combineOption]
  rw [← sameKeys, List.toFinset_card_of_nodup ascending.nodup_keys, keys, List.length_map]

end CudaMpqs.SortedMerge
