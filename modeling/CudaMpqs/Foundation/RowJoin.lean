import Mathlib.LinearAlgebra.FiniteDimensional.Lemmas
import CudaMpqs.Foundation.Elimination
import CudaMpqs.Foundation.Transition

/-! # Joining the rows of a table

A table holds a value in each row that is alive. A join puts the joined values of
two rows into the first and kills the second. What joins in some order leave in a
row is the join of the rows that it has absorbed. -/

namespace CudaMpqs.RowJoin

open Elimination Function Transition

variable {ι V W : Type} [DecidableEq ι]

def joinPair (join : V → V → V) (table : ι → Option V) (pair : ι × ι) : ι → Option V :=
  match table pair.1, table pair.2 with
  | some left, some right =>
    update (update table pair.1 (some (join left right))) pair.2 none
  | _, _ => table

structure Joinable (table : ι → Option V) (pair : ι × ι) : Prop where
  different : pair.1 ≠ pair.2
  leftAlive : (table pair.1).isSome
  rightAlive : (table pair.2).isSome

def replay (join : V → V → V) : (ι → Option V) → List (ι × ι) → ι → Option V :=
  run (joinPair join)

def Legal (join : V → V → V) : (ι → Option V) → List (ι × ι) → Prop :=
  Meets (joinPair join) Joinable

variable {join : V → V → V} {table : ι → Option V} {pair : ι × ι} {pairs : List (ι × ι)}

theorem joinPair_eq {left right : V} (isLeft : table pair.1 = some left)
    (isRight : table pair.2 = some right) :
    joinPair join table pair =
      update (update table pair.1 (some (join left right))) pair.2 none := by
  rw [joinPair, isLeft, isRight]

theorem Joinable.exists_values (joinable : Joinable table pair) :
    ∃ left right, table pair.1 = some left ∧ table pair.2 = some right :=
  ⟨_, _, (Option.some_get joinable.leftAlive).symm, (Option.some_get joinable.rightAlive).symm⟩

theorem replay_concat (pairs : List (ι × ι)) (pair : ι × ι) :
    replay join table (pairs ++ [pair]) = joinPair join (replay join table pairs) pair :=
  run_append _ _ _ _

theorem legal_concat : Legal join table (pairs ++ [pair]) ↔
      Legal join table pairs ∧ Joinable (replay join table pairs) pair := by
  rw [Legal, meets_append]
  exact and_congr_right fun _ => ⟨And.left, fun joinable => ⟨joinable, trivial⟩⟩

/-! ## Consumed rows -/

variable {row : ι}

private theorem joinPair_dead (dead : table row = none) : joinPair join table pair row = none := by
  cases isLeft : table pair.1 with
  | none =>
    rw [joinPair, isLeft]
    exact dead
  | some left =>
    cases isRight : table pair.2 with
    | none =>
      rw [joinPair, isLeft, isRight]
      exact dead
    | some right =>
      have notLeft : row ≠ pair.1 := by
        rintro rfl
        rw [isLeft] at dead
        cases dead
      rw [joinPair_eq isLeft isRight, update_apply, update_of_ne notLeft, dead, ite_self]

theorem replay_dead (dead : table row = none) (pairs : List (ι × ι)) :
    replay join table pairs row = none := by
  induction pairs generalizing table with
  | nil => exact dead
  | cons pair pairs induction => exact induction (joinPair_dead dead)

theorem Joinable.consumed (joinable : Joinable table pair) :
    joinPair join table pair pair.2 = none := by
  rcases joinable.exists_values with ⟨left, right, isLeft, isRight⟩
  rw [joinPair_eq isLeft isRight, update_self]

/-- A row that was alive is alive no more only because a join consumed it. -/
theorem joinPair_of_ne (joinable : Joinable table pair) (notConsumed : row ≠ pair.2) :
    (joinPair join table pair row).isSome = (table row).isSome := by
  rcases joinable.exists_values with ⟨left, right, isLeft, isRight⟩
  rw [joinPair_eq isLeft isRight, update_of_ne notConsumed]
  by_cases isPair : row = pair.1
  · rw [isPair, update_self, isLeft]
    rfl
  · rw [update_of_ne isPair]

theorem isSome_of_replay (alive : (replay join table pairs row).isSome) : (table row).isSome := by
  by_contra dead
  rw [Option.not_isSome_iff_eq_none] at dead
  rw [replay_dead dead] at alive
  cases alive

/-- No row is consumed twice, or used after it was consumed. -/
theorem Legal.pairwise (legal : Legal join table pairs) : pairs.Pairwise fun earlier later =>
      earlier.2 ≠ later.1 ∧ earlier.2 ≠ later.2 := by
  induction pairs generalizing table with
  | nil => exact .nil
  | cons pair pairs induction =>
    refine .cons ?_ (induction legal.2)
    intro later member
    rcases List.append_of_mem member with ⟨before, after, rfl⟩
    have rest := ((meets_append _ _ _ _ _).mp legal.2).2.1
    have used : ∀ row, (replay join (joinPair join table pair) before row).isSome →
        pair.2 ≠ row := by
      rintro row alive rfl
      rw [replay_dead (Joinable.consumed legal.1)] at alive
      cases alive
    exact ⟨used _ rest.leftAlive, used _ rest.rightAlive⟩

theorem Legal.alive (legal : Legal join table pairs) :
    ∀ pair ∈ pairs, (table pair.1).isSome ∧ (table pair.2).isSome := by
  intro pair member
  rcases List.append_of_mem member with ⟨before, after, rfl⟩
  have joinable : Joinable (replay join table before) pair :=
    ((meets_append _ _ _ _ _).mp legal).2.1
  exact ⟨isSome_of_replay joinable.leftAlive, isSome_of_replay joinable.rightAlive⟩

theorem replay_untouched (untouched : ∀ pair ∈ pairs, row ≠ pair.1 ∧ row ≠ pair.2) :
    replay join table pairs row = table row := by
  induction pairs generalizing table with
  | nil => rfl
  | cons pair pairs induction =>
    have rest : replay join (joinPair join table pair) pairs row = joinPair join table pair row :=
      induction fun other member => untouched other (List.mem_cons_of_mem _ member)
    have own := untouched pair List.mem_cons_self
    refine rest.trans ?_
    cases isLeft : table pair.1 with
    | none => rw [joinPair, isLeft]
    | some left =>
      cases isRight : table pair.2 with
      | none => rw [joinPair, isLeft, isRight]
      | some right =>
        rw [joinPair_eq isLeft isRight, update_of_ne own.2, update_of_ne own.1]

private theorem joinPair_forall {Good : V → Prop}
    (preserves : ∀ left right, table pair.1 = some left → table pair.2 = some right →
      Good left → Good right → Good (join left right))
    (initial : ∀ row value, table row = some value → Good value) {value : V}
    (isValue : joinPair join table pair row = some value) : Good value := by
  cases isLeft : table pair.1 with
  | none =>
    rw [joinPair, isLeft] at isValue
    exact initial row value isValue
  | some left =>
    cases isRight : table pair.2 with
    | none =>
      rw [joinPair, isLeft, isRight] at isValue
      exact initial row value isValue
    | some right =>
      rw [joinPair_eq isLeft isRight, update_apply, update_apply] at isValue
      split_ifs at isValue with consumed grown
      · injection isValue with equal
        exact equal ▸ preserves left right isLeft isRight (initial _ left isLeft)
          (initial _ right isRight)
      · exact initial row value isValue

/-- What the joins of a replay preserve, each of values that `Meets` admits, holds in every
row after them. -/
theorem replay_forall_of {Good : V → Prop} {Meets : V → V → Prop}
    (preserves : ∀ left right, Meets left right → Good left → Good right → Good (join left right))
    (initial : ∀ row value, table row = some value → Good value)
    (meets : ∀ before pair after, pairs = before ++ pair :: after → ∀ left right,
      replay join table before pair.1 = some left →
        replay join table before pair.2 = some right → Meets left right)
    {value : V} (isValue : replay join table pairs row = some value) : Good value := by
  induction pairs using List.reverseRecOn generalizing row value with
  | nil => exact initial row value isValue
  | append_singleton pairs pair induction =>
    have earlier : ∀ row value, replay join table pairs row = some value → Good value := by
      intro row value
      apply induction
      intro before other after equal
      refine meets before other (after ++ [pair]) ?_
      rw [equal, List.append_assoc, List.cons_append]
    rw [replay_concat] at isValue
    refine joinPair_forall ?_ earlier isValue
    intro left right isLeft isRight
    exact preserves left right (meets pairs pair [] rfl left right isLeft isRight)

/-- What joins preserve holds in every row after them. -/
theorem replay_forall {Good : V → Prop}
    (preserves : ∀ left right, Good left → Good right → Good (join left right))
    (initial : ∀ row value, table row = some value → Good value) {row : ι} {value : V}
    (isValue : replay join table pairs row = some value) : Good value :=
  replay_forall_of (fun left right (_ : True) => preserves left right) initial
    (fun _ _ _ _ _ _ _ _ => trivial) isValue

/-! ## Absorbed rows -/

def valueOf {M : Type} [Zero M] (measure : V → M) : Option V → M
  | none => 0
  | some value => measure value

variable {M : Type}

@[simp] theorem valueOf_none [Zero M] (measure : V → M) : valueOf measure none = 0 := rfl

@[simp] theorem valueOf_some [Zero M] (measure : V → M) (value : V) :
    valueOf measure (some value) = measure value := rfl

theorem valueOf_joinPair [AddZeroClass M] {measure : V → M} (joinable : Joinable table pair)
    (additive : ∀ left right, table pair.1 = some left → table pair.2 = some right →
      measure (join left right) = measure left + measure right)
    (row : ι) :
    valueOf measure (joinPair join table pair row) = if row = pair.2 then 0
      else if row = pair.1 then
        valueOf measure (table pair.1) + valueOf measure (table pair.2)
      else valueOf measure (table row) := by
  rcases joinable.exists_values with ⟨left, right, isLeft, isRight⟩
  rw [joinPair_eq isLeft isRight]
  split
  · rename_i consumed
    rw [consumed, update_self]
    rfl
  · rename_i notConsumed
    rw [update_of_ne notConsumed]
    split
    · rename_i grown
      rw [grown, update_self, isLeft, isRight]
      exact additive left right isLeft isRight
    · rename_i untouched
      rw [update_of_ne untouched]

/-- A join replaces two values of the table by that of the joined row. -/
theorem sum_joinPair [AddCommMonoid M] [Fintype ι] (join : V → V → V) (measure : V → M)
    (pair : ι × ι) {left right : V} (different : pair.1 ≠ pair.2)
    (isLeft : table pair.1 = some left) (isRight : table pair.2 = some right) :
    ∑ row, valueOf measure (joinPair join table pair row) + (measure left + measure right) =
      ∑ row, valueOf measure (table row) + measure (join left right) := by
  have inside : pair.1 ∈ Finset.univ.erase pair.2 :=
    Finset.mem_erase.mpr ⟨different, Finset.mem_univ _⟩
  have split : ∀ values : ι → M, ∑ row, values row = values pair.2 + (values pair.1 +
        ∑ row ∈ (Finset.univ.erase pair.2).erase pair.1, values row) := by
    intro values
    rw [Finset.add_sum_erase _ _ inside, Finset.add_sum_erase _ _ (Finset.mem_univ _)]
  have others : ∑ row ∈ (Finset.univ.erase pair.2).erase pair.1,
        valueOf measure (joinPair join table pair row) =
      ∑ row ∈ (Finset.univ.erase pair.2).erase pair.1, valueOf measure (table row) := by
    apply Finset.sum_congr rfl
    intro row member
    rw [Finset.mem_erase, Finset.mem_erase] at member
    rw [joinPair_eq isLeft isRight, update_of_ne member.2.1, update_of_ne member.1]
  rw [split, split fun row => valueOf measure (table row), others]
  simp only [joinPair_eq isLeft isRight, update_self, update_of_ne different, isLeft, isRight,
    valueOf_none, valueOf_some, zero_add]
  ac_rfl

def absorbed (pairs : List (ι × ι)) : ι → Finset ι :=
  pairs.foldl
    (fun rows pair => update (update rows pair.1 (rows pair.1 ∪ rows pair.2)) pair.2 ∅)
    (fun row => {row})

theorem absorbed_nil (row : ι) : absorbed [] row = {row} := rfl

theorem absorbed_concat (pairs : List (ι × ι)) (pair : ι × ι) (row : ι) :
    absorbed (pairs ++ [pair]) row = if row = pair.2 then ∅
      else if row = pair.1 then absorbed pairs pair.1 ∪ absorbed pairs pair.2
      else absorbed pairs row := by
  rw [absorbed, List.foldl_append]
  change update (update (absorbed pairs) pair.1
    (absorbed pairs pair.1 ∪ absorbed pairs pair.2)) pair.2 ∅ row = _
  rw [update_apply, update_apply]

theorem absorbed_disjoint (pairs : List (ι × ι)) {row row' : ι} (different : row ≠ row') :
    Disjoint (absorbed pairs row) (absorbed pairs row') := by
  induction pairs using List.reverseRecOn generalizing row row' with
  | nil => exact Finset.disjoint_singleton.mpr different
  | append_singleton pairs pair induction =>
    rw [absorbed_concat, absorbed_concat]
    by_cases consumed : row = pair.2
    · rw [if_pos consumed]
      exact Finset.disjoint_empty_left _
    by_cases consumed' : row' = pair.2
    · rw [if_pos consumed']
      exact Finset.disjoint_empty_right _
    rw [if_neg consumed, if_neg consumed']
    by_cases grown : row = pair.1
    · have other : row' ≠ pair.1 := fun grown' => different (grown.trans grown'.symm)
      rw [if_pos grown, if_neg other, Finset.disjoint_union_left]
      exact ⟨induction other.symm, induction (Ne.symm consumed')⟩
    by_cases grown' : row' = pair.1
    · rw [if_neg grown, if_pos grown', Finset.disjoint_union_right]
      exact ⟨induction grown, induction consumed⟩
    · rw [if_neg grown, if_neg grown']
      exact induction different

theorem mem_absorbed_self (legal : Legal join table pairs)
    (alive : (replay join table pairs row).isSome) : row ∈ absorbed pairs row := by
  induction pairs using List.reverseRecOn with
  | nil => exact Finset.mem_singleton_self row
  | append_singleton pairs pair induction =>
    rw [legal_concat] at legal
    rw [replay_concat] at alive
    have notConsumed : row ≠ pair.2 := by
      rintro rfl
      rw [legal.2.consumed] at alive
      cases alive
    rw [joinPair_of_ne legal.2 notConsumed] at alive
    rw [absorbed_concat, if_neg notConsumed]
    split
    · rename_i grown
      exact Finset.mem_union_left _ (grown ▸ induction legal.1 alive)
    · exact induction legal.1 alive

/-- A row holds the sum of the rows that it has absorbed. -/
theorem valueOf_replay [AddCommMonoid M] {measure : V → M}
    (additive : ∀ left right, measure (join left right) = measure left + measure right)
    (legal : Legal join table pairs) (row : ι) :
    valueOf measure (replay join table pairs row) =
      ∑ source ∈ absorbed pairs row, valueOf measure (table source) := by
  induction pairs using List.reverseRecOn generalizing row with
  | nil => rw [absorbed_nil, Finset.sum_singleton]; rfl
  | append_singleton pairs pair induction =>
    rw [legal_concat] at legal
    rw [replay_concat, valueOf_joinPair legal.2 (fun left right _ _ => additive left right),
      absorbed_concat]
    split
    · rw [Finset.sum_empty]
    split
    · rw [Finset.sum_union (absorbed_disjoint pairs legal.2.different), induction legal.1,
        induction legal.1]
    · exact induction legal.1 row

/-! ## Left kernels -/

section Kernel

variable {R κ β : Type} [CommRing R] {alive : Finset ι} {rows rows' : ι → κ → R}
  {record record' : ι → ι → R} {target : Set (ι → R)} {left right : ι}

def duplicate (left right : ι) (x : ι → R) : ι → R := update x right (x left)

def Grows (alive : Finset ι) (left right : ι) (vectors vectors' : ι → β → R) : Prop :=
  ∀ row ∈ alive.erase right, vectors' row =
    if row = left then vectors left + vectors right else vectors row

theorem combine_duplicate {vectors vectors' : ι → β → R} (leftAlive : left ∈ alive)
    (rightAlive : right ∈ alive) (different : left ≠ right)
    (grows : Grows alive left right vectors vectors') (x : ι → R) (j : β) :
    combine alive vectors (duplicate left right x) j =
      combine (alive.erase right) vectors' x j := by
  have leftInside : left ∈ alive.erase right :=
    Finset.mem_erase.mpr ⟨different, leftAlive⟩
  have terms : ∀ row ∈ alive.erase right, x row * vectors' row j =
      duplicate left right x row * vectors row j +
        if row = left then x left * vectors right j else 0 := by
    intro row inside
    have notRight := Finset.ne_of_mem_erase inside
    rw [grows row inside, duplicate, update_of_ne notRight]
    split
    · rename_i isLeft
      rw [isLeft, Pi.add_apply]
      ring
    · rw [add_zero]
  rw [combine, combine, Finset.sum_congr rfl terms, Finset.sum_add_distrib,
    Finset.sum_ite_eq_of_mem' _ _ _ leftInside, ← Finset.add_sum_erase alive _ rightAlive,
    add_comm]
  congr 1
  rw [duplicate, update_self]

theorem duplicate_bijOn (leftAlive : left ∈ alive) (rightAlive : right ∈ alive)
    (different : left ≠ right) (grows : Grows alive left right rows rows') :
    Set.BijOn (duplicate left right) (Kernel (alive.erase right) rows')
      {x ∈ Kernel alive rows | x left = x right} := by
  have cancels := combine_duplicate leftAlive rightAlive different grows
  refine ⟨?_, ?_, ?_⟩
  · rintro x ⟨support, kernel⟩
    refine ⟨⟨?_, fun j => by rw [cancels, kernel]⟩, ?_⟩
    · intro row dead
      have notRight : row ≠ right := by
        rintro rfl
        exact dead rightAlive
      rw [duplicate, update_of_ne notRight]
      exact support row fun inside => dead (Finset.mem_of_mem_erase inside)
    · rw [duplicate, update_self, update_of_ne different]
  · rintro x ⟨xSupport, -⟩ y ⟨ySupport, -⟩ equal
    funext row
    by_cases isRight : row = right
    · rw [isRight, xSupport right (Finset.notMem_erase _ _),
        ySupport right (Finset.notMem_erase _ _)]
    · have same := congrFun equal row
      rwa [duplicate, duplicate, update_of_ne isRight, update_of_ne isRight] at same
  · rintro x ⟨⟨support, kernel⟩, agree⟩
    have restored : duplicate left right (update x right 0) = x := by
      rw [duplicate, update_of_ne different, update_idem, agree, update_eq_self]
    refine ⟨update x right 0, ⟨?_, ?_⟩, restored⟩
    · intro row dead
      by_cases isRight : row = right
      · rw [isRight, update_self]
      · rw [update_of_ne isRight]
        exact support row fun inside => dead (Finset.mem_erase.mpr ⟨isRight, inside⟩)
    · intro j
      rw [← cancels, restored, kernel]

def RecordsSelf (alive : Finset ι) (record : ι → ι → R) : Prop :=
  ∀ row ∈ alive, ∀ source ∈ alive, record row source = if source = row then 1 else 0

theorem RecordsSelf.combine_apply (records : RecordsSelf alive record) (x : ι → R) {row : ι}
    (member : row ∈ alive) : combine alive record x row = x row := by
  have terms : ∀ other ∈ alive, x other * record other row =
      if row = other then x other else 0 := by
    intro other inside
    rw [records other inside row member, mul_ite, mul_one, mul_zero]
  rw [combine, Finset.sum_congr rfl terms, Finset.sum_ite_eq, if_pos member]

/-- Joining two rows keeps the kernel vectors that weigh them alike. -/
theorem expands_join (expands : Expands alive rows record target)
    (records : RecordsSelf alive record) (leftAlive : left ∈ alive)
    (rightAlive : right ∈ alive) (different : left ≠ right)
    (growsRows : Grows alive left right rows rows')
    (growsRecord : Grows alive left right record record') :
    Expands (alive.erase right) rows' record' {y ∈ target | y left = y right} := by
  have restricted : Set.BijOn (combine alive record)
      {x ∈ Kernel alive rows | x left = x right} {y ∈ target | y left = y right} := by
    refine ⟨?_, expands.2.1.mono fun x member => member.1, ?_⟩
    · rintro x ⟨kernel, agree⟩
      refine ⟨expands.1 kernel, ?_⟩
      rw [records.combine_apply x leftAlive, records.combine_apply x rightAlive, agree]
    · rintro y ⟨member, agree⟩
      rcases expands.2.2 member with ⟨x, kernel, rfl⟩
      rw [records.combine_apply x leftAlive, records.combine_apply x rightAlive] at agree
      exact ⟨x, ⟨kernel, agree⟩, rfl⟩
  refine (restricted.comp (duplicate_bijOn leftAlive rightAlive different growsRows)).congr ?_
  intro x _
  funext source
  exact combine_duplicate leftAlive rightAlive different growsRecord x source

end Kernel

/-! ## The kernel of a table -/

section Table

variable {R κ : Type} [CommRing R] [Fintype ι]

def aliveRows (table : ι → Option V) : Finset ι :=
  Finset.univ.filter fun row => (table row).isSome

theorem mem_aliveRows {table : ι → Option V} {row : ι} :
    row ∈ aliveRows table ↔ (table row).isSome := by
  rw [aliveRows, Finset.mem_filter, and_iff_right (Finset.mem_univ row)]

theorem aliveRows_joinPair (joinable : Joinable table pair) :
    aliveRows (joinPair join table pair) = (aliveRows table).erase pair.2 := by
  ext row
  rw [Finset.mem_erase, mem_aliveRows, mem_aliveRows]
  by_cases consumed : row = pair.2
  · rw [consumed, joinable.consumed]
    simp
  · rw [joinPair_of_ne joinable consumed, and_iff_right consumed]

theorem card_aliveRows_replay (legal : Legal join table pairs) :
    (aliveRows (replay join table pairs)).card + pairs.length = (aliveRows table).card := by
  induction pairs using List.reverseRecOn with
  | nil => rfl
  | append_singleton pairs pair induction =>
    rw [legal_concat] at legal
    have alive := mem_aliveRows.mpr legal.2.rightAlive
    have some : 0 < (aliveRows (replay join table pairs)).card := Finset.card_pos.mpr ⟨_, alive⟩
    rw [replay_concat, aliveRows_joinPair legal.2, Finset.card_erase_of_mem alive,
      ← induction legal.1, List.length_append, List.length_singleton]
    omega

def tableKernel (measure : V → κ → R) (table : ι → Option V) : Set (ι → R) :=
  Kernel (aliveRows table) fun row => valueOf measure (table row)

/-- The coefficient of a source in a row that has absorbed it. -/
def membership (pairs : List (ι × ι)) (row source : ι) : R :=
  if source ∈ absorbed pairs row then 1 else 0

theorem membership_concat (pairs : List (ι × ι)) {pair : ι × ι} (different : pair.1 ≠ pair.2)
    (alive : Finset ι) :
    Grows alive pair.1 pair.2 (membership pairs (R := R)) (membership (pairs ++ [pair])) := by
  intro row inside
  funext source
  have notConsumed := Finset.ne_of_mem_erase inside
  have disjoint := absorbed_disjoint pairs different
  rw [membership, absorbed_concat, if_neg notConsumed]
  split
  · rw [Pi.add_apply, membership, membership]
    by_cases inLeft : source ∈ absorbed pairs pair.1
    · have notRight := Finset.disjoint_left.mp disjoint inLeft
      rw [if_pos (Finset.mem_union_left _ inLeft), if_pos inLeft, if_neg notRight, add_zero]
    · rw [if_neg inLeft, zero_add]
      simp only [Finset.mem_union, inLeft, false_or]
  · rfl

theorem recordsSelf_membership (legal : Legal join table pairs) :
    RecordsSelf (aliveRows (replay join table pairs)) (membership pairs (R := R)) := by
  intro row rowAlive source sourceAlive
  rw [mem_aliveRows] at rowAlive sourceAlive
  rw [membership]
  by_cases same : source = row
  · rw [if_pos same, same, if_pos (mem_absorbed_self legal rowAlive)]
  · rw [if_neg same]
    apply if_neg
    intro absorbs
    exact Finset.disjoint_left.mp (absorbed_disjoint pairs same)
      (mem_absorbed_self legal sourceAlive) absorbs

variable {measure : V → κ → R}

private theorem combine_membership_nil {x : ι → R} (kernel : x ∈ tableKernel measure table) :
    combine (aliveRows table) (membership []) x = x := by
  have terms : ∀ source, ∀ row ∈ aliveRows table,
      x row * membership [] row source = if source = row then x row else 0 := by
    intro source row _
    simp only [membership, absorbed_nil, Finset.mem_singleton, mul_ite, mul_one, mul_zero]
  funext source
  rw [combine, Finset.sum_congr rfl (terms source), Finset.sum_ite_eq]
  split
  · rfl
  · rename_i dead
    exact (kernel.1 source dead).symm

/-- Of the kernel vectors of a table, joins keep those that weigh the rows of each
join alike, each once. -/
theorem expands_replay
    (additive : ∀ left right, measure (join left right) = measure left + measure right)
    (legal : Legal join table pairs) :
    Expands (aliveRows (replay join table pairs))
      (fun row => valueOf measure (replay join table pairs row)) (membership pairs)
      {y ∈ tableKernel measure table | ∀ pair ∈ pairs, y pair.1 = y pair.2} := by
  induction pairs using List.reverseRecOn with
  | nil =>
    have target : {y ∈ tableKernel measure table |
        ∀ pair : ι × ι, pair ∈ [] → y pair.1 = y pair.2} = tableKernel measure table := by
      ext y
      simp
    rw [target]
    exact (Set.bijOn_id _).congr fun x kernel => (combine_membership_nil kernel).symm
  | append_singleton pairs pair induction =>
    rw [legal_concat] at legal
    have joinable := legal.2
    have grows : Grows (aliveRows (replay join table pairs)) pair.1 pair.2
        (fun row => valueOf measure (replay join table pairs row))
        (fun row => valueOf measure (replay join table (pairs ++ [pair]) row)) := by
      intro row inside
      simp only [replay_concat]
      rw [valueOf_joinPair joinable fun left right _ _ => additive left right,
        if_neg (Finset.ne_of_mem_erase inside)]
    have target : {y ∈ tableKernel measure table |
          ∀ other ∈ pairs ++ [pair], y other.1 = y other.2} =
        {y ∈ {y ∈ tableKernel measure table | ∀ other ∈ pairs, y other.1 = y other.2} |
          y pair.1 = y pair.2} := by
      ext y
      simp only [Set.mem_ofPred_eq, List.forall_mem_append, List.forall_mem_singleton, and_assoc]
    rw [target, replay_concat, aliveRows_joinPair joinable]
    exact expands_join (induction legal.1) (recordsSelf_membership legal.1)
      (mem_aliveRows.mpr joinable.leftAlive) (mem_aliveRows.mpr joinable.rightAlive)
      joinable.different (by rw [← replay_concat]; exact grows)
      (membership_concat pairs joinable.different _)

def Alike (measure : V → κ → R) (table : ι → Option V) (pairs : List (ι × ι)) : Prop :=
  ∀ y ∈ tableKernel measure table, ∀ pair ∈ pairs, y pair.1 = y pair.2

theorem alike_append {more : List (ι × ι)}
    (additive : ∀ left right, measure (join left right) = measure left + measure right)
    (legal : Legal join table pairs) (alike : Alike measure table pairs)
    (alive : ∀ pair ∈ more, (replay join table pairs pair.1).isSome ∧
      (replay join table pairs pair.2).isSome)
    (next : Alike measure (replay join table pairs) more) :
    Alike measure table (pairs ++ more) := by
  intro y kernel pair member
  rcases List.mem_append.mp member with old | new
  · exact alike y kernel pair old
  · have records := recordsSelf_membership (R := R) legal
    have expands := expands_replay additive legal
    rcases expands.2.2 ⟨kernel, alike y kernel⟩ with ⟨x, xKernel, rfl⟩
    rw [records.combine_apply x (mem_aliveRows.mpr (alive pair new).1),
      records.combine_apply x (mem_aliveRows.mpr (alive pair new).2)]
    exact next x xKernel pair new

/-- Joins of rows that the kernel vectors weigh alike lose none of them. -/
theorem expands_of_alike
    (additive : ∀ left right, measure (join left right) = measure left + measure right)
    (legal : Legal join table pairs) (alike : Alike measure table pairs) :
    Expands (aliveRows (replay join table pairs))
      (fun row => valueOf measure (replay join table pairs row)) (membership pairs)
      (tableKernel measure table) := by
  have expands := expands_replay additive legal
  have whole : {y ∈ tableKernel measure table | ∀ pair ∈ pairs, y pair.1 = y pair.2} =
      tableKernel measure table := by
    ext y
    exact and_iff_left_of_imp fun kernel => alike y kernel
  rwa [whole] at expands

end Table

/-! ## Dimension -/

section Dimension

variable {F κ : Type} [Field F] [Fintype ι]

def kernelSpace (measure : V → κ → F) (table : ι → Option V) : Submodule F (ι → F) where
  carrier := tableKernel measure table
  zero_mem' := ⟨fun _ _ => rfl, fun j => by simp [combine]⟩
  add_mem' := by
    rintro x y ⟨xSupport, xCancels⟩ ⟨ySupport, yCancels⟩
    refine ⟨fun row dead => ?_, fun j => ?_⟩
    · rw [Pi.add_apply, xSupport row dead, ySupport row dead, add_zero]
    · have sum := congrArg₂ (· + ·) (xCancels j) (yCancels j)
      simpa [combine, add_mul, Finset.sum_add_distrib] using sum
  smul_mem' := by
    rintro scalar x ⟨support, cancels⟩
    refine ⟨fun row dead => ?_, fun j => ?_⟩
    · rw [Pi.smul_apply, support row dead, smul_zero]
    · have scaled := congrArg (scalar * ·) (cancels j)
      simpa [combine, Finset.mul_sum, mul_assoc] using scaled

def alikeSpace (measure : V → κ → F) (table : ι → Option V) (pairs : List (ι × ι)) :
    Submodule F (ι → F) where
  carrier := {y ∈ tableKernel measure table | ∀ pair ∈ pairs, y pair.1 = y pair.2}
  zero_mem' := ⟨(kernelSpace measure table).zero_mem, fun _ _ => rfl⟩
  add_mem' := by
    rintro x y ⟨xKernel, xAlike⟩ ⟨yKernel, yAlike⟩
    refine ⟨(kernelSpace measure table).add_mem xKernel yKernel, fun pair member => ?_⟩
    rw [Pi.add_apply, Pi.add_apply, xAlike pair member, yAlike pair member]
  smul_mem' := by
    rintro scalar x ⟨kernel, alike⟩
    refine ⟨(kernelSpace measure table).smul_mem scalar kernel, fun pair member => ?_⟩
    rw [Pi.smul_apply, Pi.smul_apply, alike pair member]

theorem alikeSpace_le (measure : V → κ → F) (table : ι → Option V) (pairs : List (ι × ι)) :
    alikeSpace measure table pairs ≤ kernelSpace measure table :=
  fun _ member => member.1

def combineMap (alive : Finset ι) (record : ι → ι → F) : (ι → F) →ₗ[F] (ι → F) where
  toFun := combine alive record
  map_add' x y := by
    funext source
    simp [combine, add_mul, Finset.sum_add_distrib]
  map_smul' scalar x := by
    funext source
    simp [combine, Finset.mul_sum, mul_assoc]

private theorem finrank_replay {measure : V → κ → F}
    (additive : ∀ left right, measure (join left right) = measure left + measure right)
    (legal : Legal join table pairs) :
    Module.finrank F (kernelSpace measure (replay join table pairs)) =
      Module.finrank F (alikeSpace measure table pairs) := by
  have expands := expands_replay additive legal
  let expand := combineMap (aliveRows (replay join table pairs)) (membership pairs (R := F))
  have image : (kernelSpace measure (replay join table pairs)).map expand =
      alikeSpace measure table pairs :=
    SetLike.coe_injective expands.image_eq
  have injective : Function.Injective
      (expand.domRestrict (kernelSpace measure (replay join table pairs))) := by
    intro x y equal
    exact Subtype.ext (expands.2.1 x.2 y.2 equal)
  rw [← image, ← LinearMap.range_domRestrict, LinearMap.finrank_range_of_inj injective]

/-- Joins keep the dimension of the kernel if and only if every kernel vector weighs
the rows of each join alike. -/
theorem finrank_replay_eq_iff {measure : V → κ → F}
    (additive : ∀ left right, measure (join left right) = measure left + measure right)
    (legal : Legal join table pairs) :
    Module.finrank F (kernelSpace measure (replay join table pairs)) =
        Module.finrank F (kernelSpace measure table) ↔ Alike measure table pairs := by
  rw [finrank_replay additive legal]
  constructor
  · intro same y kernel pair member
    have whole := Submodule.eq_of_le_of_finrank_eq (alikeSpace_le measure table pairs) same
    have inside : y ∈ alikeSpace measure table pairs := by
      rw [whole]
      exact kernel
    exact inside.2 pair member
  · intro alike
    have whole : kernelSpace measure table ≤ alikeSpace measure table pairs :=
      fun y kernel => ⟨kernel, alike y kernel⟩
    rw [le_antisymm (alikeSpace_le measure table pairs) whole]

end Dimension

end CudaMpqs.RowJoin
