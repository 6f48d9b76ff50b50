import Mathlib.Data.Fin.VecNotation
import Mathlib.Data.Fintype.Prod
import CudaMpqs.Foundation.CoprimeProducts
import CudaMpqs.Sqrt.RefineFactors

/-! # What the refinement leaves

The kernel splits pairs of entries until it finds no more. A pair of which one entry divides the
other counts as split already, so that an entry with a divisor beside it stays unless a third
one parts the two. Factors over four coprime atoms never exceed the pool, `tmp`, the threads or
the rounds. -/

namespace CudaMpqs.RefineFactors

open UInt512 CoprimeBase CrossingSets DistinctSort Transition

/-! ## Runs -/

structure Derived (N : UInt512) (first pool : List UInt512) : Prop where
  proper : ProperPool N pool
  ascending : pool.Pairwise (·.toNat < ·.toNat)
  short : pool.length ≤ maxPool
  pieces : ∀ entry ∈ pool, ∃ whole ∈ first, entry.toNat ∣ whole.toNat
  nonempty : first ≠ [] → pool ≠ []

section Rounds

variable {N : UInt512} {left : Nat} {first pool : List UInt512} {order : List Split}
  {orders : List (List Split)}

theorem Derived.turn (derived : Derived N first pool) (splits : order ≠ [])
    (arrive : order.Perm (pairSplits pool)) : Derived N first (turn N pool order) := by
  refine ⟨turn_proper derived.proper arrive, pairwise_turn pool order, List.length_take_le _ _,
    fun entry member => ?_, fun _ => turn_ne_nil derived.proper arrive splits⟩
  rcases turn_pieces derived.proper arrive entry member with ⟨part, inside, divides⟩
  rcases derived.pieces part inside with ⟨whole, wholeMember, divided⟩
  exact ⟨whole, wholeMember, divides.trans divided⟩

theorem Rounds.derived (rounds : Rounds N left first orders) (initial : Derived N first first) :
    Derived N first (Transition.run (RefineFactors.turn N) first orders) :=
  rounds.arrive.invariant (fun _ _ arrive derived => derived.turn arrive.1 arrive.2) initial

theorem exists_rounds (N : UInt512) (left : Nat) (pool : List UInt512) :
    ∃ orders, Rounds N left pool orders := by
  induction left generalizing pool with
  | zero => exact ⟨[], trivial, le_rfl, .inl rfl⟩
  | succ left induction =>
    by_cases quiet : pairSplits pool = []
    · exact ⟨[], trivial, Nat.zero_le _, .inr quiet⟩
    · rcases induction (RefineFactors.turn N pool (pairSplits pool)) with ⟨orders, rounds⟩
      refine ⟨pairSplits pool :: orders, ⟨⟨quiet, List.Perm.refl _⟩, rounds.arrive⟩,
        Nat.succ_le_succ rounds.bound, ?_⟩
      exact rounds.ends.imp_left (congrArg Nat.succ)

end Rounds

/-! ## Rounds over four atoms -/

/-- The crossing pairs of subsets of four atoms, in either order. -/
theorem card_crossing : ((Finset.univ : Finset (Finset (Fin 4) × Finset (Fin 4))).filter
      fun pair => Cross pair.1 pair.2).card = 60 := by
  decide +kernel

/-- Half of the crossing pairs begin with the smaller product. -/
theorem card_crossing_below (value : Finset (Fin 4) → ℕ) :
    ((Finset.univ : Finset (Finset (Fin 4) × Finset (Fin 4))).filter
      fun pair => Cross pair.1 pair.2 ∧ value pair.1 < value pair.2).card ≤ 30 := by
  let below := (Finset.univ : Finset (Finset (Fin 4) × Finset (Fin 4))).filter
    fun pair => Cross pair.1 pair.2 ∧ value pair.1 < value pair.2
  have swapped : (below.image Prod.swap).card = below.card :=
    Finset.card_image_of_injective _ Prod.swap_injective
  have apart : Disjoint below (below.image Prod.swap) := by
    rw [Finset.disjoint_left]
    intro pair left right
    rcases Finset.mem_image.mp right with ⟨other, member, rfl⟩
    have first := (Finset.mem_filter.mp left).2.2
    have second := (Finset.mem_filter.mp member).2.2
    exact absurd first second.not_gt
  have inside : below ∪ below.image Prod.swap ⊆ (Finset.univ : Finset (Finset (Fin 4) ×
      Finset (Fin 4))).filter fun pair => Cross pair.1 pair.2 := by
    intro pair member
    refine Finset.mem_filter.mpr ⟨Finset.mem_univ _, ?_⟩
    rcases Finset.mem_union.mp member with left | right
    · exact (Finset.mem_filter.mp left).2.1
    · rcases Finset.mem_image.mp right with ⟨other, original, rfl⟩
      exact (Finset.mem_filter.mp original).2.1.symm
  have counted := Finset.card_le_card inside
  rw [Finset.card_union_of_disjoint apart, swapped, card_crossing] at counted
  show below.card ≤ 30
  omega

section Atomic

variable {N : UInt512} {atom : Fin 4 → ℕ} {pool : List UInt512} {order splits : List Split}

theorem nodup_toNat (ascending : pool.Pairwise (·.toNat < ·.toNat)) :
    (pool.map UInt512.toNat).Nodup :=
  List.Pairwise.map _ (fun _ _ below => below.ne) ascending

theorem length_le_of_over (proper : ProperPool N pool) (distinct : (pool.map UInt512.toNat).Nodup)
    (products : Over atom {a | a ∈ pool.map UInt512.toNat}) : pool.length ≤ 15 := by
  have above : ∀ a ∈ pool.map UInt512.toNat, 1 < a := by
    intro a member
    rcases List.mem_map.mp member with ⟨entry, inside, rfl⟩
    exact (proper entry inside).above
  have few := products.length_lt distinct above
  rw [List.length_map, Fintype.card_fin] at few
  omega

/-- Different threads find different crossing pairs of sets of atoms. -/
theorem length_filterMap_range_le {α κ : Type} {n : Nat} {f : Nat → Option α} (key : Nat → κ)
    (keys : Finset κ) (maps : ∀ i item, f i = some item → key i ∈ keys)
    (injective : ∀ i item j item', f i = some item → f j = some item' → key i = key j → i = j) :
    ((List.range n).filterMap f).length ≤ keys.card := by
  rw [List.length_filterMap_eq_countP, List.countP_eq_length_filter,
    ← List.toFinset_card_of_nodup (List.nodup_range.filter _)]
  have found : ∀ i ∈ ((List.range n).filter (Option.isSome ∘ f)).toFinset,
      ∃ item, f i = some item := fun i member =>
    Option.isSome_iff_exists.mp (List.mem_filter.mp (List.mem_toFinset.mp member)).2
  refine Finset.card_le_card_of_injOn key (fun i member => ?_) fun i left j right same => ?_
  · rcases found i member with ⟨item, isItem⟩
    exact maps i item isItem
  · rcases found i left with ⟨item, isItem⟩
    rcases found j right with ⟨item', isItem'⟩
    exact injective i item j item' isItem isItem' same

theorem length_pairSplits_le (ascending : pool.Pairwise (·.toNat < ·.toNat))
    (products : Over atom {a | a ∈ pool.map UInt512.toNat}) (atoms : Atoms atom) :
    (pairSplits pool).length ≤ 30 := by
  have atomic : ∀ entry ∈ pool, ∃ s, ∏ i ∈ s, atom i = entry.toNat := fun entry member =>
    products _ (List.mem_map_of_mem member)
  choose! sets product using atomic
  have rising : ∀ i j : Nat, (below : i < j) → (inside : j < pool.length) →
      ∏ k ∈ sets pool[i], atom k < ∏ k ∈ sets pool[j], atom k := by
    intro i j below inside
    rw [product _ (List.getElem_mem (below.trans inside)), product _ (List.getElem_mem inside)]
    exact List.pairwise_iff_getElem.mp ascending i j (below.trans inside) inside below
  have distinct : ∀ i j : Nat, (left : i < pool.length) → (right : j < pool.length) →
      sets pool[i] = sets pool[j] → i = j := by
    intro i j left right same
    rcases Nat.lt_trichotomy i j with below | equal | above
    · exact absurd (same ▸ rising i j below right) (lt_irrefl _)
    · exact equal
    · exact absurd (same ▸ rising j i above left) (lt_irrefl _)
  let place := fun i => sets (pool.getD i (ofUInt32 0))
  have place_eq : ∀ i, (inside : i < pool.length) → place i = sets pool[i] :=
    fun i inside => congrArg sets (List.getD_eq_getElem _ _ inside)
  refine (length_filterMap_range_le (fun tid => (place (decodeTriangular tid pool.length).1,
    place (decodeTriangular tid pool.length).2)) _ (fun tid split isSplit => ?_)
    fun tid split tid' split' isSplit isSplit' same => ?_).trans
    (card_crossing_below fun s => ∏ i ∈ s, atom i)
  · rcases pair_of_thread isSplit with ⟨i, j, below, inside, -, isPair, of⟩
    have crosses := of.crosses
    rw [← product _ (List.getElem_mem (below.trans inside)), ← product _ (List.getElem_mem inside),
      atoms.crosses_iff] at crosses
    rw [isPair, place_eq i (below.trans inside), place_eq j inside]
    exact Finset.mem_filter.mpr ⟨Finset.mem_univ _, crosses, rising i j below inside⟩
  · rcases pair_of_thread isSplit with ⟨i, j, below, inside, isTid, isPair, -⟩
    rcases pair_of_thread isSplit' with ⟨i', j', below', inside', isTid', isPair', -⟩
    rw [isPair, isPair', place_eq i (below.trans inside), place_eq i' (below'.trans inside'),
      place_eq j inside, place_eq j' inside', Prod.mk.injEq] at same
    rw [isTid, isTid', distinct i i' (below.trans inside) (below'.trans inside') same.1,
      distinct j j' inside inside' same.2]

theorem splitsAll_everything (proper : ProperPool N pool) (few : pool.length ≤ 16)
    (all : splits.Perm (pairSplits pool)) :
    SplitsAll (pool.map UInt512.toNat) ((everything pool splits).map UInt512.toNat) := by
  have comes : ∀ split ∈ splits, split ∈ pairSplits pool := fun _ member => all.mem_iff.mp member
  have fragment : ∀ split ∈ splits, ∀ entry ∈ split.fragments,
      entry.toNat ∈ (everything pool splits).map UInt512.toNat := fun split member entry inside =>
    List.mem_map_of_mem (List.mem_append_left _ (List.mem_flatMap.mpr ⟨split, member, inside⟩))
  constructor
  · intro number left number' right crosses
    rcases List.mem_map.mp left with ⟨a, aMember, rfl⟩
    rcases List.mem_map.mp right with ⟨b, bMember, rfl⟩
    rcases exists_split few aMember bMember crosses with ⟨split, member, of | of⟩
    · rcases of.toNat proper with ⟨g, aDivG, -⟩
      have taken := fragment split (all.mem_iff.mpr member)
      rw [← aDivG, ← g]
      exact ⟨taken _ (mem_fragments.mpr (.inl rfl)), taken _ (mem_fragments.mpr (.inr (.inl rfl)))⟩
    · rcases of.toNat proper with ⟨g, -, bDivG⟩
      have taken := fragment split (all.mem_iff.mpr member)
      rw [Nat.gcd_comm, ← bDivG, ← g]
      exact ⟨taken _ (mem_fragments.mpr (.inl rfl)), taken _ (mem_fragments.mpr (.inr (.inr rfl)))⟩
  · intro number member
    rcases List.mem_map.mp member with ⟨entry, inside, rfl⟩
    rcases List.mem_append.mp inside with found | kept
    · rcases List.mem_flatMap.mp found with ⟨split, splitMember, piece⟩
      rcases splits_of_mem (comes split splitMember) with ⟨a, b, of⟩
      rcases of.toNat proper with ⟨g, aDivG, bDivG⟩
      have left := List.mem_map_of_mem (f := UInt512.toNat) of.left
      have right := List.mem_map_of_mem (f := UInt512.toNat) of.right
      rcases mem_fragments.mp piece with rfl | rfl | rfl
      · exact .inr ⟨_, left, _, right, of.crosses, .inl g⟩
      · exact .inr ⟨_, left, _, right, of.crosses, .inr aDivG⟩
      · refine .inr ⟨_, right, _, left, of.crosses.symm, .inr ?_⟩
        rw [bDivG, Nat.gcd_comm]
    · rcases List.mem_filter.mp kept with ⟨old, uninvolved⟩
      refine .inl ⟨List.mem_map_of_mem old, fun number right crosses => ?_⟩
      rcases List.mem_map.mp right with ⟨b, bMember, rfl⟩
      rcases exists_split few old bMember crosses with ⟨split, member, of⟩
      have involves : split.involves entry = true :=
        of.elim (fun of => (of.involves_iff proper).mpr (.inl rfl))
          fun of => (of.involves_iff proper).mpr (.inr rfl)
      rw [List.any_eq_true.mpr ⟨split, all.mem_iff.mpr member, involves⟩] at uninvolved
      cases uninvolved

/-- Over four atoms a round has room for everything, and splits all that it can. -/
theorem splitsAll_turn (proper : ProperPool N pool) (ascending : pool.Pairwise (·.toNat < ·.toNat))
    (products : Over atom {a | a ∈ pool.map UInt512.toNat}) (atoms : Atoms atom)
    (arrive : order.Perm (pairSplits pool)) :
    Keeps pool (order.take maxPool) ∧
      SplitsAll (pool.map UInt512.toNat) ((turn N pool order).map UInt512.toNat) := by
  have few := length_le_of_over proper (nodup_toNat ascending) products
  have splitsFew := length_pairSplits_le ascending products atoms
  have whole : order.take maxPool = order :=
    List.take_of_length_le (arrive.length_eq.trans_le (splitsFew.trans (by decide)))
  have splits := splitsAll_everything proper (few.trans (by decide)) arrive
  have keeps : Keeps pool (order.take maxPool) := by
    rw [whole]
    have pieces : ProperPool N (everything pool order).dedup := fun entry member =>
      (piece_of_mem_everything proper (fun _ => arrive.mem_iff.mp) (List.mem_dedup.mp member)).1
    have values : ((everything pool order).dedup.map UInt512.toNat).Nodup :=
      (List.nodup_dedup _).map toNat_injective
    have overPieces : Over atom {a | a ∈ (everything pool order).dedup.map UInt512.toNat} := by
      intro number member
      rcases List.mem_map.mp member with ⟨entry, inside, rfl⟩
      exact splits.products atoms products _ (List.mem_map_of_mem (List.mem_dedup.mp inside))
    constructor
    · have fragments : (order.flatMap Split.fragments).length = order.length * 3 := by
        have three : ∀ split : Split, split.fragments.length = 3 := fun _ => rfl
        simp only [List.length_flatMap, three, List.map_const', List.sum_replicate, smul_eq_mul]
      have kept := List.length_filter_le (fun entry => !order.any (·.involves entry)) pool
      have size : (everything pool order).length ≤ maxPool * 2 := by
        rw [everything, List.length_append, fragments, arrive.length_eq, maxPool]
        omega
      rw [List.take_of_length_le size]
      exact fun _ member => member
    · exact (length_le_of_over pieces values overPieces).trans (by decide)
  refine ⟨keeps, fun a left b right crosses => ?_, fun q member => ?_⟩
  · have moved : ∀ number ∈ (everything pool order).map UInt512.toNat,
        number ∈ (turn N pool order).map UInt512.toNat := by
      intro number member
      rcases List.mem_map.mp member with ⟨entry, inside, rfl⟩
      exact List.mem_map_of_mem (mem_turn_of_keeps proper arrive keeps (whole.symm ▸ inside))
    exact (splits.cut a left b right crosses).imp (moved _) (moved _)
  · rcases List.mem_map.mp member with ⟨entry, inside, rfl⟩
    have found := mem_everything_of_mem_turn proper arrive inside
    rw [whole] at found
    exact splits.comes _ (List.mem_map_of_mem found)

structure Atomic (N : UInt512) (atom : Fin 4 → ℕ) (pool : List UInt512) : Prop where
  proper : ProperPool N pool
  ascending : pool.Pairwise (·.toNat < ·.toNat)
  products : Over atom {a | a ∈ pool.map UInt512.toNat}

theorem Atomic.turn (atomic : Atomic N atom pool) (atoms : Atoms atom)
    (arrive : order.Perm (pairSplits pool)) : Atomic N atom (turn N pool order) where
  proper := turn_proper atomic.proper arrive
  ascending := pairwise_turn pool order
  products := (splitsAll_turn atomic.proper atomic.ascending atomic.products atoms
    arrive).2.products atoms
    atomic.products

theorem Atomic.keeps {orders : List (List Split)} (atomic : Atomic N atom pool)
    (atoms : Atoms atom) (arrive : Meets (RefineFactors.turn N) (fun pool order =>
      order ≠ [] ∧ order.Perm (pairSplits pool)) pool orders) :
    Meets (RefineFactors.turn N) (fun pool order => Keeps pool (order.take maxPool)) pool
      orders := by
  induction orders generalizing pool with
  | nil => trivial
  | cons order orders induction =>
    exact ⟨(splitsAll_turn atomic.proper atomic.ascending atomic.products atoms arrive.1.2).1,
      induction (atomic.turn atoms arrive.1.2) arrive.2⟩

/-- An untangled pool stays untangled, and its crossing entries lose an atom in every turn. -/
theorem Atomic.run {orders : List (List Split)} {size : Nat} (atomic : Atomic N atom pool)
    (atoms : Atoms atom) (untangled : Untangled (atomSets atom (pool.map UInt512.toNat)))
    (narrow : Narrow (atomSets atom (pool.map UInt512.toNat)) size)
    (arrive : Meets (RefineFactors.turn N) (fun pool order =>
      order ≠ [] ∧ order.Perm (pairSplits pool)) pool orders) :
    let last := Transition.run (RefineFactors.turn N) pool orders
    Atomic N atom last ∧ Untangled (atomSets atom (last.map UInt512.toNat)) ∧
      Narrow (atomSets atom (last.map UInt512.toNat)) (size - orders.length) := by
  induction orders generalizing pool size with
  | nil => exact ⟨atomic, untangled, narrow⟩
  | cons order orders induction =>
    have round := (splitsAll_turn atomic.proper atomic.ascending atomic.products atoms
      arrive.1.2).2.round atoms atomic.products
    have later := induction (atomic.turn atoms arrive.1.2) (untangled.round round)
      (narrow.round round) arrive.2
    rw [List.length_cons, Nat.add_comm, ← Nat.sub_sub]
    exact later

end Atomic

/-! ## The factors handed to the kernel -/

def Handed (N : UInt512) (dFactors : Nat → UInt512) (dFactorStatus : Nat → BitVec 32)
    (n : Nat) : Prop :=
  ∀ j < n, dFactorStatus j ≠ 0 → ProperFactor N (dFactors j)

instance (N : UInt512) (dFactors : Nat → UInt512) (dFactorStatus : Nat → BitVec 32) (n : Nat) :
    Decidable (Handed N dFactors dFactorStatus n) :=
  inferInstanceAs (Decidable (∀ j < n, dFactorStatus j ≠ 0 → ProperFactor N (dFactors j)))

def reported (dFactors : Nat → UInt512) (dFactorStatus : Nat → BitVec 32) (n : Nat) : Set ℕ :=
  {number | ∃ j < n, dFactorStatus j ≠ 0 ∧ (dFactors j).toNat = number}

/-- Every reported value has a thread, and fewer than `MAX_POOL` threads report another one. -/
def Placed (dFactors : Nat → UInt512) (dFactorStatus : Nat → BitVec 32) (n : Nat) : Prop :=
  ∀ j < n, dFactorStatus j ≠ 0 → (∃ tid ∈ reporting dFactorStatus n, dFactors tid = dFactors j) ∧
      (reporting dFactorStatus n).countP (fun tid => dFactors tid ≠ dFactors j) < maxPool

instance (dFactors : Nat → UInt512) (dFactorStatus : Nat → BitVec 32) (n : Nat) :
    Decidable (Placed dFactors dFactorStatus n) :=
  inferInstanceAs (Decidable (∀ j < n, dFactorStatus j ≠ 0 →
    (∃ tid ∈ reporting dFactorStatus n, dFactors tid = dFactors j) ∧
      (reporting dFactorStatus n).countP (fun tid => dFactors tid ≠ dFactors j) < maxPool))

section Kernel

variable {N : UInt512} {dFactors : Nat → UInt512} {dFactorStatus : Nat → BitVec 32} {n : Nat}

theorem mem_reporting {tid : Nat} : tid ∈ reporting dFactorStatus n ↔
    tid < refineBlockSize ∧ tid < n ∧ dFactorStatus tid ≠ 0 := by
  rw [reporting, List.mem_filter, List.mem_range, Bool.and_eq_true, decide_eq_true_iff, bne_iff_ne]

namespace Run

variable (run : Run N dFactors dFactorStatus n)

theorem mem_pool {entry : UInt512} : entry ∈ run.pool ↔
    (∃ tid ∈ run.arrivals.take maxPool, dFactors tid = entry) ∧ nontrivial N entry = true := by
  rw [pool, compact, mem_distinctSort, List.mem_map]

theorem mem_reporting_of_arrivals {tid : Nat} (member : tid ∈ run.arrivals.take maxPool) :
    tid < n ∧ dFactorStatus tid ≠ 0 :=
  (mem_reporting.mp (run.arrive.mem_iff.mp (List.mem_of_mem_take member))).2

theorem taken (placed : Placed dFactors dFactorStatus n) {j : Nat} (inside : j < n)
    (status : dFactorStatus j ≠ 0) :
    ∃ tid ∈ run.arrivals.take maxPool, dFactors tid = dFactors j := by
  by_contra lost
  have others : ∀ tid ∈ run.arrivals.take maxPool, dFactors tid ≠ dFactors j :=
    fun tid member same => lost ⟨tid, member, same⟩
  rcases placed j inside status with ⟨⟨tid, reports, same⟩, few⟩
  have counted := (List.take_sublist maxPool run.arrivals).countP_le
    (p := fun tid => dFactors tid ≠ dFactors j)
  rw [List.countP_eq_length.mpr fun tid member => decide_eq_true (others tid member),
    List.length_take, run.arrive.countP_eq] at counted
  have short : run.arrivals.length ≤ maxPool := by omega
  rw [List.take_of_length_le short] at others
  exact others tid (run.arrive.mem_iff.mpr reports) same

section

variable (handed : Handed N dFactors dFactorStatus n)

include handed

theorem derived_pool : Derived N run.pool run.pool := by
  refine ⟨fun entry member => ?_, pairwise_distinctSort less _ toNat_injective less_iff _, ?_,
    fun entry member => ⟨entry, member, dvd_rfl⟩, id⟩
  · rcases (mem_pool run).mp member with ⟨⟨tid, arrived, rfl⟩, -⟩
    rcases run.mem_reporting_of_arrivals arrived with ⟨inside, status⟩
    exact handed tid inside status
  · refine (length_distinctSort_le less _ toNat_injective less_iff _).trans ?_
    refine (List.dedup_sublist _).length_le.trans ?_
    rw [List.length_map]
    exact List.length_take_le _ _

theorem derived : Derived N run.pool run.dRefined :=
  run.rounds.derived (run.derived_pool handed)

theorem divides_reported : ∀ q ∈ run.dRefined.map UInt512.toNat,
    1 < q ∧ ∃ a ∈ reported dFactors dFactorStatus n, q ∣ a := by
  intro q member
  rcases List.mem_map.mp member with ⟨entry, inside, rfl⟩
  have derived := run.derived handed
  rcases derived.pieces entry inside with ⟨whole, wholeMember, part⟩
  rcases (mem_pool run).mp wholeMember with ⟨⟨tid, arrived, rfl⟩, -⟩
  rcases run.mem_reporting_of_arrivals arrived with ⟨below, status⟩
  exact ⟨(derived.proper entry inside).above, _, ⟨tid, below, status, rfl⟩, part⟩

end

theorem nonempty : Nonempty (Run N dFactors dFactorStatus n) := by
  rcases exists_rounds N maxRefineRounds (compact N dFactors (reporting dFactorStatus n)) with
    ⟨orders, rounds⟩
  exact ⟨⟨_, orders, List.Perm.refl _, rounds⟩⟩

/-! ## When the outputs are coprime -/

end Run

end Kernel

end CudaMpqs.RefineFactors
