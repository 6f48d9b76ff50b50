import Mathlib.Order.Interval.Finset.Nat

/-! # Loops and stores of a thread block

The threads of a block share a loop: each starts at its own index and steps by the number of
threads, or by the number of groups when a group of threads shares an index. Their stores and
atomic additions meet in one array. -/

namespace CudaMpqs.ThreadLoops

def strided (stride stop : Nat) : Nat → Nat → List Nat
  | 0, _ => []
  | fuel + 1, i => if i < stop then i :: strided stride stop fuel (i + stride) else []

def loopFrom (first stride stop : Nat) : List Nat := strided stride stop (stop - first) first

section Loops

variable {first stride stop i : Nat}

theorem mem_strided (positive : 0 < stride) (fuel : Nat) (enough : stop - first ≤ fuel) :
    i ∈ strided stride stop fuel first ↔ first ≤ i ∧ i < stop ∧ stride ∣ i - first := by
  induction fuel generalizing first with
  | zero => exact iff_of_false List.not_mem_nil fun inside => by omega
  | succ fuel next =>
    rw [strided]
    split
    next more =>
        rw [List.mem_cons, next (by omega)]
        constructor
        · rintro (rfl | ⟨above, below, turn, split⟩)
          · exact ⟨le_rfl, more, by rw [Nat.sub_self]; exact Nat.dvd_zero stride⟩
          · refine ⟨by omega, below, turn + 1, ?_⟩
            rw [Nat.mul_succ]
            omega
        · rintro ⟨above, below, turn, split⟩
          rcases turn with _ | turn
          · rw [Nat.mul_zero] at split
            exact Or.inl (by omega)
          · rw [Nat.mul_succ] at split
            exact Or.inr ⟨by omega, below, turn, by omega⟩
    next less => exact iff_of_false List.not_mem_nil fun inside => by omega

theorem mem_loopFrom (positive : 0 < stride) :
    i ∈ loopFrom first stride stop ↔ first ≤ i ∧ i < stop ∧ stride ∣ i - first :=
  mem_strided positive _ le_rfl

private theorem nodup_strided (positive : 0 < stride) (fuel : Nat) (enough : stop - first ≤ fuel) :
    (strided stride stop fuel first).Nodup := by
  induction fuel generalizing first with
  | zero => exact List.nodup_nil
  | succ fuel next =>
    rw [strided]
    split
    next =>
        refine List.nodup_cons.mpr ⟨fun member => ?_, next (by omega)⟩
        have above := ((mem_strided positive fuel (by omega)).mp member).1
        omega
    next => exact List.nodup_nil

theorem bind_threads (positive : 0 < stride) : (Multiset.range stride).bind (fun thread =>
      (loopFrom (first + thread) stride stop : Multiset Nat)) = (Finset.Ico first stop).val := by
  refine (Multiset.Nodup.ext ?_ (Finset.nodup _)).mpr fun i => ?_
  · refine Multiset.nodup_bind.mpr ⟨fun thread _ =>
      Multiset.coe_nodup.mpr (nodup_strided positive _ le_rfl), ?_⟩
    refine (Multiset.nodup_range stride).pairwise fun left leftMember right rightMember differ => ?_
    rw [Multiset.mem_range] at leftMember rightMember
    refine Multiset.disjoint_left.mpr @fun i inLeft inRight => differ ?_
    rcases (mem_loopFrom positive).mp inLeft with ⟨reached, -, turn, split⟩
    rcases (mem_loopFrom positive).mp inRight with ⟨reached', -, turn', split'⟩
    have residue : ∀ {thread turn : Nat}, thread < stride → first + thread ≤ i →
        i - (first + thread) = stride * turn → (i - first) % stride = thread := by
      intro thread turn below above equal
      have whole : i - first = thread + stride * turn := by omega
      rw [whole, Nat.add_mul_mod_self_left, Nat.mod_eq_of_lt below]
    rw [← residue leftMember reached split, residue rightMember reached' split']
  · rw [Multiset.mem_bind, Finset.mem_val, Finset.mem_Ico]
    constructor
    · rintro ⟨thread, -, member⟩
      rcases (mem_loopFrom positive).mp member with ⟨reached, below, -⟩
      exact ⟨by omega, below⟩
    · rintro ⟨reached, below⟩
      have division := Nat.mod_add_div (i - first) stride
      refine ⟨(i - first) % stride, Multiset.mem_range.mpr (Nat.mod_lt _ positive),
        (mem_loopFrom positive).mpr ⟨by omega, below, (i - first) / stride, by omega⟩⟩

variable {Event : Type} {lanes groups : Nat}

private theorem bind_range_mul (positive : 0 < lanes) (f : Nat → Nat → Multiset Event) :
    (Multiset.range (lanes * groups)).bind (fun thread => f (thread / lanes) (thread % lanes)) =
      (Multiset.range groups).bind fun group => (Multiset.range lanes).bind (f group) := by
  induction groups with
  | zero => rfl
  | succ groups previous =>
    have last : (Multiset.range lanes).bind (fun lane => f ((lanes * groups + lane) / lanes)
        ((lanes * groups + lane) % lanes)) = (Multiset.range lanes).bind (f groups) := by
      refine Multiset.bind_congr fun lane member => ?_
      have below := Multiset.mem_range.mp member
      rw [Nat.mul_add_div positive, Nat.div_eq_of_lt below, Nat.add_zero, Nat.mul_add_mod,
        Nat.mod_eq_of_lt below]
    rw [Nat.mul_succ, Multiset.range_add, Multiset.add_bind, previous, Multiset.bind_map,
      last, Multiset.range_succ, Multiset.cons_bind, add_comm]

/-- The groups visit every index once, all lanes together. -/
theorem bind_groups (lanesPositive : 0 < lanes) (positive : 0 < groups)
    (f : Nat → Nat → Multiset Event) :
    (Multiset.range (lanes * groups)).bind (fun thread =>
      (loopFrom (first + thread / lanes) groups stop : Multiset Nat).bind fun i =>
        f i (thread % lanes)) =
      (Finset.Ico first stop).val.bind fun i => (Multiset.range lanes).bind (f i) := by
  rw [bind_range_mul lanesPositive fun group lane =>
    (loopFrom (first + group) groups stop : Multiset Nat).bind fun i => f i lane]
  simp only [Multiset.bind_bind (Multiset.range lanes)]
  rw [← Multiset.bind_assoc, bind_threads positive]

end Loops

/-! ## Stores -/

section Stores

variable {Index Value : Type} [DecidableEq Index] {stores : List (Index × Value)}
  {index : Index} {value : Value}

def applyStores (stores : List (Index × Value)) (array : Index → Value) : Index → Value :=
  stores.foldl (fun array store => Function.update array store.1 store.2) array

theorem applyStores_of_notMem (array : Index → Value) (untouched : ∀ store ∈ stores,
    store.1 ≠ index) : applyStores stores array index = array index := by
  induction stores generalizing array with
  | nil => rfl
  | cons store stores later =>
    rw [applyStores, List.foldl_cons]
    refine (later _ fun other member => untouched other (List.mem_cons_of_mem _ member)).trans ?_
    exact Function.update_of_ne (untouched store List.mem_cons_self).symm _ _

/-- Stores that agree on an index leave their common value there, in any order. -/
theorem applyStores_of_mem (array : Index → Value) (stored : (index, value) ∈ stores)
    (agree : ∀ store ∈ stores, store.1 = index → store.2 = value) :
    applyStores stores array index = value := by
  induction stores generalizing array with
  | nil => exact absurd stored List.not_mem_nil
  | cons store stores later =>
    have rest : ∀ other ∈ stores, other.1 = index → other.2 = value :=
      fun other member => agree other (List.mem_cons_of_mem _ member)
    rw [applyStores, List.foldl_cons]
    by_cases again : (index, value) ∈ stores
    · exact later _ again rest
    · have same : (index, value) = store := (List.mem_cons.mp stored).resolve_right again
      subst same
      refine (applyStores_of_notMem _ fun other member equal => again ?_).trans
        (Function.update_self _ _ _)
      rwa [← rest other member equal, ← equal]

def Stored (stores : List (Index × Value)) (before after : Index → Value) : Prop :=
  ∃ order : List (Index × Value), order.Perm stores ∧ after = applyStores order before

theorem exists_stored (stores : List (Index × Value)) (before : Index → Value) :
    ∃ after, Stored stores before after :=
  ⟨_, stores, List.Perm.refl stores, rfl⟩

theorem Stored.of_mem {before after : Index → Value} (stored : Stored stores before after)
    (member : (index, value) ∈ stores)
    (agree : ∀ store ∈ stores, store.1 = index → store.2 = value) : after index = value := by
  rcases stored with ⟨order, perm, rfl⟩
  exact applyStores_of_mem before (perm.mem_iff.mpr member)
    fun store found => agree store (perm.mem_iff.mp found)

theorem Stored.of_notMem {before after : Index → Value} (stored : Stored stores before after)
    (untouched : ∀ store ∈ stores, store.1 ≠ index) : after index = before index := by
  rcases stored with ⟨order, perm, rfl⟩
  exact applyStores_of_notMem before fun store found => untouched store (perm.mem_iff.mp found)

end Stores

/-! ## Atomic additions -/

section Additions

variable {Index Value : Type} [DecidableEq Index] [AddCommMonoid Value]
  {adds : List (Index × Value)}

def atomicAdd (array : Index → Value) (add : Index × Value) : Index → Value :=
  Function.update array add.1 (array add.1 + add.2)

def Added (adds : List (Index × Value)) (before after : Index → Value) : Prop :=
  ∃ order : List (Index × Value), order.Perm adds ∧ after = order.foldl atomicAdd before

theorem exists_added (adds : List (Index × Value)) (before : Index → Value) :
    ∃ after, Added adds before after :=
  ⟨_, adds, List.Perm.refl adds, rfl⟩

private theorem foldl_atomicAdd (array : Index → Value) (adds : List (Index × Value))
    (index : Index) :
    adds.foldl atomicAdd array index =
      array index + (adds.map fun add => if add.1 = index then add.2 else 0).sum := by
  induction adds generalizing array with
  | nil => rw [List.map_nil, List.sum_nil, add_zero, List.foldl_nil]
  | cons add adds induction =>
    rw [List.foldl_cons, induction, List.map_cons, List.sum_cons, ← add_assoc, atomicAdd]
    by_cases own : add.1 = index
    · rw [own, Function.update_self, if_pos rfl]
    · rw [Function.update_of_ne (Ne.symm own), if_neg own, add_zero]

theorem Added.apply {before after : Index → Value} (added : Added adds before after)
    (index : Index) : after index =
      before index + (adds.map fun add => if add.1 = index then add.2 else 0).sum := by
  rcases added with ⟨order, perm, rfl⟩
  rw [foldl_atomicAdd, (perm.map _).sum_eq]

end Additions

end CudaMpqs.ThreadLoops
