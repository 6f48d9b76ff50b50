import CudaMpqs.Foundation.OwnedCells
import CudaMpqs.Lingen.InitBasisAgreement

/-! # The initial generator

`F` and `gamma` are built from the basis by the host, one bit after the other, and by one
device thread for each row. -/

namespace CudaMpqs.Lingen.InitBasis

open Function OwnedCells

/-! ## Host -/

def setBitRm (cols r c : Nat) (data : List (BitVec 64)) : List (BitVec 64) :=
  data.modify (r * wordsFor cols + c / 64) (· ||| (1 : BitVec 64) <<< (c % 64))

def wordsPerMat (m n : Nat) : Nat := (m + n) * wordsFor (m + n)

/-- `build_f_init_cpu`. A basis that is not complete has no pairs and ends the second loop at
once. The terms of the pairs are below `t0` (`findInitBasisCpu_below`), so no degree is out of
bounds. -/
def buildFInitCpu (init : InitBasisResult) (m n : Nat) : List (List (BitVec 64)) × List Nat :=
  let dim := m + n
  let zero := List.replicate (init.t0 + 1) (List.replicate (wordsPerMat m n) 0)
  let identity := (List.range n).foldl (fun F j => F.modify 0 (setBitRm dim j j)) zero
  let F := (List.range m).foldl (fun F k =>
    match init.pairs[k]? with
    | none => F
    | some (i, j) => F.modify (init.t0 - i) (setBitRm dim (n + k) j)) identity
  (F, List.replicate dim init.t0)

/-! ## Device -/

inductive Cell where
  | word (address : Nat)
  | gamma (row : Nat)
deriving DecidableEq

abbrev Cell.Value : Cell → Type
  | .word _ => BitVec 64
  | .gamma _ => Nat

abbrev DeviceMemory := (cell : Cell) → cell.Value

def orBit (address bit : Nat) : Op Cell.Value :=
  ⟨.word address, fun word : BitVec 64 => word ||| (1 : BitVec 64) <<< bit⟩

def threadBits (device : DeviceResult) (m n x : Nat) : List (Nat × Nat) :=
  (if x < n then [(x * wordsFor (m + n) + x / 64, x % 64)] else []) ++
    if x < m ∧ device.status = 0 then
      let pair := device.pairs.getD x (0, 0)
      let deg := device.t0 - pair.1
      [(deg * wordsPerMat m n + (n + x) * wordsFor (m + n) + pair.2 / 64, pair.2 % 64)]
    else []

def kBuildFInit (device : DeviceResult) (m n x : Nat) : List (Op Cell.Value) :=
  if x ≥ m + n then []
  else (threadBits device m n x).map (fun bit => orBit bit.1 bit.2) ++
    [⟨.gamma x, fun _ : Nat => device.t0⟩]

abbrev BuildThread (m n : Nat) := Fin ((m + n + 255) / 256 * 256)

/-- The memory before the kernel: the coefficients up to `t0` are cleared, the rest holds
whatever it holds. -/
def clearF (memory : DeviceMemory) (t0 m n : Nat) : DeviceMemory
  | .word address => if address < (t0 + 1) * wordsPerMat m n then 0 else memory (.word address)
  | .gamma row => memory (.gamma row)

def launchBuildFInitGpu (memory : DeviceMemory) (device : DeviceResult) (m n : Nat)
    (schedule : List (BuildThread m n)) : State (BuildThread m n) Cell.Value :=
  run (start (fun x : BuildThread m n => kBuildFInit device m n x) (clearF memory device.t0 m n))
    schedule

def downloadF (memory : DeviceMemory) (t0 m n : Nat) : List (BitVec 64) × List Nat :=
  ((List.range ((t0 + 1) * wordsPerMat m n)).map fun address => memory (.word address),
    (List.range (m + n)).map fun row => memory (.gamma row))

/-! ## The bits of the host -/

def fInitBits (init : InitBasisResult) (m n : Nat) : List (Nat × Nat × Nat) :=
  (List.range n).map (fun j => (0, j, j)) ++
    (List.range m).filterMap fun k => init.pairs[k]?.map fun pair =>
      (init.t0 - pair.1, n + k, pair.2)

def setBits (cols : Nat) (bits : List (Nat × Nat × Nat)) (F : List (List (BitVec 64))) :
    List (List (BitVec 64)) :=
  bits.foldl (fun F bit => F.modify bit.1 (setBitRm cols bit.2.1 bit.2.2)) F

theorem buildFInitCpu_eq (init : InitBasisResult) (m n : Nat) : (buildFInitCpu init m n).1 =
    setBits (m + n) (fInitBits init m n)
      (List.replicate (init.t0 + 1) (List.replicate (wordsPerMat m n) 0)) := by
  rw [setBits, fInitBits, List.foldl_append, List.foldl_map, List.foldl_filterMap]
  refine congrArg (fun step => List.foldl step _ _) ?_
  funext F k
  cases init.pairs[k]? <;> rfl

def bitAddress (cols : Nat) (bit : Nat × Nat × Nat) : Nat :=
  bit.2.1 * wordsFor cols + bit.2.2 / 64

theorem getD_modify {α : Type} (l : List α) (i j : Nat) (f : α → α) (inside : i < l.length)
    (default : α) : (l.modify i f).getD j default =
      if j = i then f (l.getD j default) else l.getD j default := by
  rw [List.getD_eq_getElem?_getD, List.getD_eq_getElem?_getD, List.getElem?_modify]
  by_cases same : j = i
  · subst same
    simp [inside]
  · simp [same, Ne.symm same]

theorem sized_modify {α : Type} {F : List (List α)} {size : Nat}
    (sized : ∀ mat ∈ F, mat.length = size) (i : Nat) {f : List α → List α}
    (keeps : ∀ mat, (f mat).length = mat.length) : ∀ mat ∈ F.modify i f, mat.length = size := by
  intro mat member
  rcases List.mem_iff_getElem?.mp member with ⟨d, isMat⟩
  rw [List.getElem?_modify, Option.map_eq_map, Option.map_eq_some_iff] at isMat
  rcases isMat with ⟨old, isOld, rfl⟩
  have length := sized old (List.mem_of_getElem? isOld)
  split
  · rw [keeps, length]
  · exact length

/-- One bit of a coefficient list in which every coefficient has `size` words. -/
theorem getLsbD_setBits {cols size : Nat} {bits : List (Nat × Nat × Nat)}
    {F : List (List (BitVec 64))} (sized : ∀ mat ∈ F, mat.length = size)
    (inside : ∀ bit ∈ bits, bit.1 < F.length ∧ bitAddress cols bit < size) (d k b : Nat) :
    (((setBits cols bits F).getD d []).getD k 0).getLsbD b = true ↔
      ((F.getD d []).getD k 0).getLsbD b = true ∨
        ∃ bit ∈ bits, bit.1 = d ∧ bitAddress cols bit = k ∧ bit.2.2 % 64 = b := by
  induction bits generalizing F with
  | nil => simp [setBits]
  | cons bit bits induction =>
    have own := inside bit List.mem_cons_self
    have rest := fun other member => inside other (List.mem_cons_of_mem bit member)
    have next := induction (sized_modify sized bit.1 (f := setBitRm cols bit.2.1 bit.2.2)
      fun mat => List.length_modify _ _ _) (by rwa [List.length_modify])
    have length : (F.getD bit.1 []).length = size := by
      rw [List.getD_eq_getElem _ _ own.1]
      exact sized _ (List.getElem_mem own.1)
    have changed : (((F.modify bit.1 (setBitRm cols bit.2.1 bit.2.2)).getD d []).getD k 0).getLsbD
        b = true ↔ ((F.getD d []).getD k 0).getLsbD b = true ∨
          bit.1 = d ∧ bitAddress cols bit = k ∧ bit.2.2 % 64 = b := by
      rw [getD_modify _ _ _ _ own.1]
      by_cases sameDegree : d = bit.1
      · subst sameDegree
        rw [if_pos rfl, setBitRm, getD_modify _ _ _ _ (by rw [length]; exact own.2)]
        by_cases sameAddress : k = bit.2.1 * wordsFor cols + bit.2.2 / 64
        · have mask := getLsbD_one_shiftLeft (Nat.mod_lt bit.2.2 (by decide : 0 < 64)) b
          rw [if_pos sameAddress, BitVec.getLsbD_or, mask, Bool.or_eq_true, decide_eq_true_iff]
          exact or_congr_right ⟨fun same => ⟨rfl, sameAddress.symm, same.symm⟩,
            fun same => same.2.2.symm⟩
        · rw [if_neg sameAddress]
          simp [bitAddress, Ne.symm sameAddress]
      · rw [if_neg sameDegree]
        simp [Ne.symm sameDegree]
    rw [setBits, List.foldl_cons, ← setBits, next, changed]
    simp only [List.mem_cons, exists_eq_or_imp, or_assoc]

theorem setBits_sized {cols size : Nat} (bits : List (Nat × Nat × Nat))
    {F : List (List (BitVec 64))} (sized : ∀ mat ∈ F, mat.length = size) :
    (setBits cols bits F).length = F.length ∧ ∀ mat ∈ setBits cols bits F, mat.length = size := by
  induction bits generalizing F with
  | nil => exact ⟨rfl, sized⟩
  | cons bit bits induction =>
    have next := induction (sized_modify sized bit.1 (f := setBitRm cols bit.2.1 bit.2.2)
      fun mat => List.length_modify _ _ _)
    rwa [List.length_modify] at next

theorem zeroF_sized (init : InitBasisResult) (m n : Nat) : ∀ mat ∈ List.replicate (init.t0 + 1)
    (List.replicate (wordsPerMat m n) (0 : BitVec 64)), mat.length = wordsPerMat m n := by
  intro mat member
  rw [(List.mem_replicate.mp member).2, List.length_replicate]

section Host

variable {init : InitBasisResult} {m n : Nat}

def PairsBelow (init : InitBasisResult) (n : Nat) : Prop :=
  ∀ pair ∈ init.pairs, pair.1 < init.t0 ∧ pair.2 < n

theorem fInitBits_inside (below : PairsBelow init n) {bit : Nat × Nat × Nat}
    (member : bit ∈ fInitBits init m n) :
    bit.1 < init.t0 + 1 ∧ bit.2.1 < m + n ∧ bit.2.2 < n := by
  rw [fInitBits, List.mem_append, List.mem_map, List.mem_filterMap] at member
  rcases member with ⟨j, inside, rfl⟩ | ⟨k, inside, isBit⟩
  · rw [List.mem_range] at inside
    exact ⟨Nat.succ_pos _, Nat.lt_add_left m inside, inside⟩
  · rw [List.mem_range] at inside
    rcases Option.map_eq_some_iff.mp isBit with ⟨pair, isPair, rfl⟩
    have bounds := below pair (List.mem_of_getElem? isPair)
    exact ⟨by dsimp only; omega, by dsimp only; omega, bounds.2⟩

private theorem bitAddress_lt {bit : Nat × Nat × Nat} (row : bit.2.1 < m + n)
    (column : bit.2.2 < n) :
    bitAddress (m + n) bit < wordsPerMat m n := by
  have word := lt_wordsFor (Nat.lt_add_left m column)
  exact Nat.lt_of_lt_of_le (Nat.add_lt_add_left word _)
    ((Nat.succ_mul bit.2.1 (wordsFor (m + n))).symm.trans_le (Nat.mul_le_mul_right _ row))

theorem buildFInitCpu_bit (below : PairsBelow init n) {a : Nat}
    (inside : a < (init.t0 + 1) * wordsPerMat m n) (b : Nat) :
    ((buildFInitCpu init m n).1.flatten.getD a 0).getLsbD b = true ↔ ∃ bit ∈ fInitBits init m n,
        bit.1 * wordsPerMat m n + bitAddress (m + n) bit = a ∧ bit.2.2 % 64 = b := by
  have zeroSized := zeroF_sized init m n
  have size : 0 < wordsPerMat m n := Nat.pos_of_lt_mul_left inside
  have valid : ∀ bit ∈ fInitBits init m n, bit.1 < init.t0 + 1 ∧
      bitAddress (m + n) bit < wordsPerMat m n := by
    intro bit member
    have bounds := fInitBits_inside below member
    exact ⟨bounds.1, bitAddress_lt bounds.2.1 bounds.2.2⟩
  have zero : ∀ d k, (((List.replicate (init.t0 + 1)
      (List.replicate (wordsPerMat m n) (0 : BitVec 64))).getD d []).getD k 0).getLsbD b =
        false := by
    intro d k
    rw [@List.getD_eq_getElem?_getD _ _ d, List.getElem?_replicate]
    split
    · rw [Option.getD_some, List.getD_eq_getElem?_getD, List.getElem?_getD_replicate_default_eq]
      exact BitVec.getLsbD_zero
    · exact BitVec.getLsbD_zero
  have word := getD_flatten (@setBits_sized (m + n) _ (fInitBits init m n) _ zeroSized).2
    (a / wordsPerMat m n) (Nat.mod_lt a size)
  rw [Nat.div_add_mod'] at word
  rw [buildFInitCpu_eq, word, getLsbD_setBits zeroSized (by rwa [List.length_replicate]), zero]
  simp only [Bool.false_eq_true, false_or]
  refine exists_congr fun bit => and_congr_right fun member => ?_
  rw [← and_assoc, eq_comm, @eq_comm _ (bitAddress _ _), Nat.div_mod_unique size, Nat.mul_comm,
    Nat.add_comm, and_iff_left (valid bit member).2]

end Host

/-! ## The bits of the device -/

section Device

variable {device : DeviceResult} {m n : Nat}

theorem mem_threadBits {x : Nat} {bit : Nat × Nat} : bit ∈ threadBits device m n x ↔
    x < n ∧ bit = (x * wordsFor (m + n) + x / 64, x % 64) ∨ (x < m ∧ device.status = 0) ∧
        bit = ((device.t0 - (device.pairs.getD x (0, 0)).1) * wordsPerMat m n +
          (n + x) * wordsFor (m + n) + (device.pairs.getD x (0, 0)).2 / 64,
          (device.pairs.getD x (0, 0)).2 % 64) := by
  rw [threadBits, List.mem_append]
  refine or_congr ?_ ?_ <;> split <;> simp [*]

def rowAt (m n a : Nat) : Nat := a / wordsFor (m + n) % (m + n)

theorem rowAt_eq {d row column : Nat} (isRow : row < m + n) (inside : column < m + n) :
    rowAt m n (d * wordsPerMat m n + row * wordsFor (m + n) + column / 64) = row := by
  have word := lt_wordsFor inside
  have address : d * wordsPerMat m n + row * wordsFor (m + n) + column / 64 =
      column / 64 + wordsFor (m + n) * (row + (m + n) * d) := by
    rw [wordsPerMat]
    ring
  rw [rowAt, address, Nat.add_mul_div_left _ _ (Nat.zero_lt_of_lt word), Nat.div_eq_of_lt word,
    Nat.zero_add, Nat.add_mul_mod_self_left, Nat.mod_eq_of_lt isRow]

def ColumnsBelow (device : DeviceResult) (m n : Nat) : Prop :=
  ∀ x < m, device.status = 0 → (device.pairs.getD x (0, 0)).2 < n

/-- The identity is in the rows above `n`, the monomials are in the rows from `n`. -/
theorem rowAt_threadBits (columns : ColumnsBelow device m n) {x : Nat} {bit : Nat × Nat}
    (member : bit ∈ threadBits device m n x) :
    x < n ∧ rowAt m n bit.1 = x ∨ x < m ∧ rowAt m n bit.1 = n + x := by
  rcases mem_threadBits.mp member with ⟨top, rfl⟩ | ⟨⟨bottom, complete⟩, rfl⟩
  · have row := @rowAt_eq m n 0 x x (Nat.lt_add_left m top) (Nat.lt_add_left m top)
    rw [Nat.zero_mul, Nat.zero_add] at row
    exact .inl ⟨top, row⟩
  · exact .inr ⟨bottom, rowAt_eq (by omega) (Nat.lt_add_left m (columns x bottom complete))⟩

theorem mem_kBuildFInit {x : Nat} {op : Op Cell.Value} : op ∈ kBuildFInit device m n x ↔
    x < m + n ∧ ((∃ bit ∈ threadBits device m n x, orBit bit.1 bit.2 = op) ∨
      op = ⟨.gamma x, fun _ : Nat => device.t0⟩) := by
  rw [kBuildFInit]
  by_cases outside : x ≥ m + n
  · simp [outside, Nat.not_lt.mpr outside]
  · rw [if_neg outside, List.mem_append, List.mem_map, List.mem_singleton,
      and_iff_right (Nat.lt_of_not_le outside)]

theorem kBuildFInit_owned (columns : ColumnsBelow device m n) :
    Owned fun x : BuildThread m n => kBuildFInit device m n x := by
  intro x y different op isOp op' isOp' same
  apply different
  apply Fin.ext
  rcases (mem_kBuildFInit.mp isOp).2 with ⟨bit, member, rfl⟩ | rfl <;>
    rcases (mem_kBuildFInit.mp isOp').2 with ⟨bit', member', rfl⟩ | rfl
  · injection same with address
    have row := rowAt_threadBits columns member
    have row' := rowAt_threadBits columns member'
    rw [address] at row
    omega
  · cases same
  · cases same
  · injection same

private theorem effect_orBits {bits : List (Nat × Nat)} (small : ∀ bit ∈ bits, bit.2 < 64)
    (memory : DeviceMemory) (a b : Nat) :
    BitVec.getLsbD (effect (bits.map fun bit => orBit bit.1 bit.2) memory (.word a)) b = true ↔
      BitVec.getLsbD (memory (.word a)) b = true ∨ (a, b) ∈ bits := by
  induction bits generalizing memory with
  | nil => simp [effect]
  | cons bit bits induction =>
    have own := small bit List.mem_cons_self
    rw [List.map_cons, effect, List.foldl_cons, ← effect,
      induction fun other member => small other (List.mem_cons_of_mem _ member)]
    by_cases touched : bit.1 = a
    · subst touched
      have word : apply memory (orBit bit.1 bit.2) (.word bit.1) =
          (show BitVec 64 from memory (.word bit.1)) ||| (1 : BitVec 64) <<< bit.2 :=
        update_self _ _ _
      rw [word, BitVec.getLsbD_or, getLsbD_one_shiftLeft own, Bool.or_eq_true,
        decide_eq_true_iff, List.mem_cons, or_assoc, Prod.ext_iff, and_iff_right rfl]
    · have other : (a, b) ≠ bit := fun same => touched (congrArg Prod.fst same).symm
      rw [apply_of_ne fun same => touched (Cell.word.inj same), List.mem_cons, or_iff_right other]

/-- Each bit of the finished `F` is one that its thread sets. -/
theorem launchBuildFInitGpu_bit (columns : ColumnsBelow device m n) {memory : DeviceMemory}
    {schedule : List (BuildThread m n)}
    (finished : (launchBuildFInitGpu memory device m n schedule).Finished) {a : Nat}
    (inside : a < (device.t0 + 1) * wordsPerMat m n) (b : Nat) :
    BitVec.getLsbD ((launchBuildFInitGpu memory device m n schedule).memory (.word a)) b = true ↔
      ∃ x < m + n, (a, b) ∈ threadBits device m n x := by
  have owned := kBuildFInit_owned columns
  have cleared : BitVec.getLsbD (clearF memory device.t0 m n (.word a)) b = false := by
    rw [clearF, if_pos inside]
    exact BitVec.getLsbD_zero
  by_cases touched : ∃ x : BuildThread m n, ∃ op ∈ kBuildFInit device m n x, op.1 = .word a
  · rcases touched with ⟨x, op, isOp, isWord⟩
    have isThread := (mem_kBuildFInit.mp isOp).1
    have small : ∀ bit ∈ threadBits device m n x, bit.2 < 64 := by
      intro bit member
      rcases mem_threadBits.mp member with ⟨-, rfl⟩ | ⟨-, rfl⟩ <;> exact Nat.mod_lt _ (by decide)
    have word : effect (kBuildFInit device m n x) (clearF memory device.t0 m n) (.word a) =
        effect ((threadBits device m n x).map fun bit => orBit bit.1 bit.2)
          (clearF memory device.t0 m n) (.word a) := by
      have apart : Cell.gamma x ≠ .word a := fun same => nomatch same
      rw [kBuildFInit, if_neg (Nat.not_le.mpr isThread), effect, List.foldl_append]
      exact @apply_of_ne Cell _ Cell.Value _ ⟨.gamma x, fun _ : Nat => device.t0⟩ _ apart
    rw [launchBuildFInitGpu, run_touched owned finished ⟨op, isOp, isWord⟩, word,
      effect_orBits small, cleared]
    simp only [Bool.false_eq_true, false_or]
    refine ⟨fun member => ⟨x, isThread, member⟩, ?_⟩
    rintro ⟨y, inside', member⟩
    by_contra absent
    have other : (⟨y, by omega⟩ : BuildThread m n) ≠ x := fun same =>
      absent (show (a, b) ∈ threadBits device m n x.val from same ▸ member)
    exact owned _ x other (orBit a b) (mem_kBuildFInit.mpr ⟨inside', .inl ⟨_, member, rfl⟩⟩) op isOp
      isWord.symm
  · rw [launchBuildFInitGpu, run_untouched owned schedule
      fun x op isOp isWord => touched ⟨x, op, isOp, isWord⟩, cleared]
    refine ⟨fun set => absurd set Bool.false_ne_true, ?_⟩
    rintro ⟨y, inside', member⟩
    exact absurd ⟨⟨y, by omega⟩, orBit a b, mem_kBuildFInit.mpr ⟨inside', .inl ⟨_, member, rfl⟩⟩,
      rfl⟩
      touched

theorem launchBuildFInitGpu_gamma (columns : ColumnsBelow device m n) {memory : DeviceMemory}
    {schedule : List (BuildThread m n)}
    (finished : (launchBuildFInitGpu memory device m n schedule).Finished) {row : Nat}
    (inside : row < m + n) :
    (launchBuildFInitGpu memory device m n schedule).memory (.gamma row) = device.t0 := by
  have isOp : ⟨.gamma row, fun _ : Nat => device.t0⟩ ∈ kBuildFInit device m n row :=
    mem_kBuildFInit.mpr ⟨inside, .inr rfl⟩
  rw [launchBuildFInitGpu, @run_touched _ _ _ _ _ _ _ (kBuildFInit_owned columns) _ finished
    ⟨row, by omega⟩ _ ⟨_, isOp, rfl⟩, kBuildFInit, if_neg (Nat.not_le.mpr inside), effect,
    List.foldl_append]
  exact update_self _ _ _

end Device

/-! ## The same generator -/

theorem length_flatten {α : Type} {F : List (List α)} {size : Nat}
    (sized : ∀ mat ∈ F, mat.length = size) : F.flatten.length = F.length * size := by
  rw [List.length_flatten, List.eq_replicate_of_mem (List.forall_mem_map.mpr sized),
    List.sum_replicate, List.length_map, smul_eq_mul]

theorem downloadF_word (memory : DeviceMemory) {t0 m n a : Nat}
    (inside : a < (downloadF memory t0 m n).1.length) :
    (downloadF memory t0 m n).1[a] = memory (.word a) :=
  (List.getElem_map _).trans
    (congrArg (fun a => (memory (.word a) : BitVec 64)) (List.getElem_range _))

theorem downloadF_gamma (memory : DeviceMemory) {t0 m n row : Nat}
    (inside : row < (downloadF memory t0 m n).2.length) :
    (downloadF memory t0 m n).2[row] = memory (.gamma row) :=
  (List.getElem_map _).trans
    (congrArg (fun row => (memory (.gamma row) : Nat)) (List.getElem_range _))

structure Holds (device : DeviceResult) (init : InitBasisResult) (m : Nat) : Prop where
  t0 : device.t0 = init.t0
  pairs : ∀ k < m, init.pairs[k]? =
    if device.status = 0 then some (device.pairs.getD k (0, 0)) else none

section Generator

variable {device : DeviceResult} {init : InitBasisResult} {m n : Nat}

theorem threadBits_eq (holds : Holds device init m) (a b : Nat) :
    (∃ x < m + n, (a, b) ∈ threadBits device m n x) ↔ ∃ bit ∈ fInitBits init m n,
      bit.1 * wordsPerMat m n + bitAddress (m + n) bit = a ∧ bit.2.2 % 64 = b := by
  constructor
  · rintro ⟨x, -, member⟩
    rcases mem_threadBits.mp member with ⟨top, isBit⟩ | ⟨⟨bottom, complete⟩, isBit⟩
    · refine ⟨(0, x, x), List.mem_append_left _ ?_, ?_⟩
      · exact List.mem_map.mpr ⟨x, List.mem_range.mpr top, rfl⟩
      · rw [Prod.ext_iff] at isBit
        rw [Nat.zero_mul, Nat.zero_add]
        exact ⟨isBit.1.symm, isBit.2.symm⟩
    · have pair := holds.pairs x bottom
      rw [if_pos complete] at pair
      refine ⟨(init.t0 - (device.pairs.getD x (0, 0)).1, n + x, (device.pairs.getD x (0, 0)).2),
        List.mem_append_right _ (List.mem_filterMap.mpr ⟨x, List.mem_range.mpr bottom, ?_⟩), ?_⟩
      · rw [pair]
        rfl
      · rw [Prod.ext_iff, holds.t0] at isBit
        rw [bitAddress, ← Nat.add_assoc]
        exact ⟨isBit.1.symm, isBit.2.symm⟩
  · rintro ⟨bit, member, rfl, rfl⟩
    rw [fInitBits, List.mem_append, List.mem_map, List.mem_filterMap] at member
    rcases member with ⟨j, inside, rfl⟩ | ⟨k, inside, isBit⟩
    · rw [List.mem_range] at inside
      refine ⟨j, Nat.lt_add_left m inside, mem_threadBits.mpr (.inl ⟨inside, ?_⟩)⟩
      rw [Nat.zero_mul, Nat.zero_add, bitAddress]
    · rw [List.mem_range] at inside
      rw [holds.pairs k inside] at isBit
      split at isBit
      next complete =>
          injection isBit with isBit
          subst isBit
          refine ⟨k, Nat.lt_add_right n inside, mem_threadBits.mpr (.inr ⟨⟨inside, complete⟩, ?_⟩)⟩
          rw [bitAddress, holds.t0, ← Nat.add_assoc]
      next => cases isBit

theorem downloadF_eq (holds : Holds device init m) (below : PairsBelow init n)
    {memory : DeviceMemory} {schedule : List (BuildThread m n)}
    (finished : (launchBuildFInitGpu memory device m n schedule).Finished) :
    downloadF (launchBuildFInitGpu memory device m n schedule).memory device.t0 m n =
      ((buildFInitCpu init m n).1.flatten, (buildFInitCpu init m n).2) := by
  have columns : ColumnsBelow device m n := by
    intro x inside complete
    have pair := holds.pairs x inside
    rw [if_pos complete] at pair
    exact (below _ (List.mem_of_getElem? pair)).2
  have length : (buildFInitCpu init m n).1.flatten.length =
      (init.t0 + 1) * wordsPerMat m n := by
    have sized := @setBits_sized (m + n) _ (fInitBits init m n) _ (zeroF_sized init m n)
    rw [buildFInitCpu_eq, length_flatten sized.2, sized.1, List.length_replicate]
  refine Prod.ext (List.ext_getElem ?_ fun a inside inside' => ?_)
    (List.ext_getElem ?_ fun row inside inside' => ?_)
  · rw [length, downloadF, List.length_map, List.length_range, holds.t0]
  · rw [length] at inside'
    have word : (buildFInitCpu init m n).1.flatten[a] =
        (buildFInitCpu init m n).1.flatten.getD a 0 := (List.getD_eq_getElem _ _ _).symm
    rw [downloadF_word, word]
    apply BitVec.eq_of_getLsbD_eq
    intro b _
    rw [Bool.eq_iff_iff, buildFInitCpu_bit below inside', ← threadBits_eq holds]
    exact launchBuildFInitGpu_bit columns finished (by rwa [holds.t0]) b
  · rw [downloadF, buildFInitCpu, List.length_map, List.length_range, List.length_replicate]
  · have isRow : row < m + n := by rwa [downloadF, List.length_map, List.length_range] at inside
    have entry : (buildFInitCpu init m n).2[row] = init.t0 := List.getElem_replicate _
    rw [downloadF_gamma, launchBuildFInitGpu_gamma columns finished isRow, entry, holds.t0]

end Generator

/-! ## The basis of the search -/

section Search

variable {S : List (List (BitVec 64))} {m n : Nat}

theorem hostAccept_pairs {state next : HostState} {candidate : Nat × Nat}
    (accepted : hostAccept S m n state candidate = some next) :
    next.pairs = state.pairs ++ [candidate] := by
  rcases Option.map_eq_some_iff.mp accepted with ⟨firstBit, -, rfl⟩
  rfl

theorem scan_pairs {full : HostState → Bool} {candidates : List (Nat × Nat)} {state : HostState}
    {pair : Nat × Nat}
    (member : pair ∈ (scan (hostAccept S m n) full Prod.fst candidates state).2.pairs) :
    pair ∈ state.pairs ∨ pair ∈ candidates := by
  induction candidates generalizing state with
  | nil => exact .inl member
  | cons candidate candidates induction =>
    rw [scan] at member
    cases accepted : hostAccept S m n state candidate with
    | none =>
      rw [accepted] at member
      exact (induction member).imp_right (List.mem_cons_of_mem _)
    | some next =>
      rw [accepted] at member
      have grown : pair ∈ next.pairs → pair ∈ state.pairs ∨ pair ∈ candidate :: candidates := by
        rw [hostAccept_pairs accepted, List.mem_append, List.mem_singleton]
        exact Or.imp_right fun same => same ▸ List.mem_cons_self
      dsimp only at member
      split at member
      · exact grown member
      · exact (induction member).elim grown fun later => .inr (List.mem_cons_of_mem _ later)

/-- The candidates are scanned in the order of their terms, so the last accepted one has the
largest. -/
theorem scan_below {full : HostState → Bool} {candidates : List (Nat × Nat)} {state : HostState}
    (ascending : candidates.Pairwise fun earlier later => earlier.1 ≤ later.1)
    (earlier : ∀ pair ∈ state.pairs, ∀ candidate ∈ candidates, pair.1 ≤ candidate.1) {t0 : Nat}
    (ended : (scan (hostAccept S m n) full Prod.fst candidates state).1 = some t0) :
    ∀ pair ∈ (scan (hostAccept S m n) full Prod.fst candidates state).2.pairs, pair.1 < t0 := by
  induction candidates generalizing state with
  | nil => cases ended
  | cons candidate candidates induction =>
    rcases List.pairwise_cons.mp ascending with ⟨first, rest⟩
    rw [scan] at ended ⊢
    cases accepted : hostAccept S m n state candidate with
    | none =>
      rw [accepted] at ended
      exact induction rest (fun pair member other later =>
        earlier pair member other (List.mem_cons_of_mem _ later)) ended
    | some next =>
      rw [accepted] at ended
      dsimp only at ended ⊢
      have grown : ∀ pair ∈ next.pairs, pair ∈ state.pairs ∨ pair = candidate := by
        rw [hostAccept_pairs accepted]
        exact fun pair member => (List.mem_append.mp member).imp_right List.mem_singleton.mp
      split at ended
      next complete =>
          rw [if_pos complete]
          injection ended with last
          subst last
          intro pair member
          rcases grown pair member with old | rfl
          · exact Nat.lt_succ_of_le (earlier pair old candidate List.mem_cons_self)
          · exact Nat.lt_succ_self _
      next incomplete =>
          rw [if_neg incomplete]
          refine induction rest (fun pair member other later => ?_) ended
          rcases grown pair member with old | rfl
          · exact earlier pair old other (List.mem_cons_of_mem _ later)
          · exact first other later

private theorem hostCandidates_ascending (len n : Nat) :
    (hostCandidates len n).Pairwise fun earlier later => earlier.1 ≤ later.1 := by
  rw [hostCandidates, List.pairwise_flatMap]
  constructor
  · intro i _
    rw [List.pairwise_map]
    exact List.pairwise_of_forall fun _ _ => Nat.le_refl i
  · refine List.pairwise_lt_range.imp fun {i i'} below pair member pair' member' => ?_
    rcases List.mem_map.mp member with ⟨j, -, rfl⟩
    rcases List.mem_map.mp member' with ⟨j', -, rfl⟩
    exact Nat.le_of_lt below

theorem findInitBasisCpu_below (S : List (List (BitVec 64))) (m n : Nat) :
    PairsBelow (findInitBasisCpu S m n) n := by
  have columns : ∀ pair ∈ (hostScan S m n).2.pairs, pair.2 < n := by
    intro pair member
    rcases scan_pairs member with old | scanned
    · exact absurd old List.not_mem_nil
    · rcases List.mem_flatMap.mp scanned with ⟨i, -, isPair⟩
      rcases List.mem_map.mp isPair with ⟨j, inside, rfl⟩
      exact List.mem_range.mp inside
  have terms : ∀ {t0}, (hostScan S m n).1 = some t0 →
      ∀ pair ∈ (hostScan S m n).2.pairs, pair.1 < t0 :=
    scan_below (hostCandidates_ascending _ _) fun _ old => absurd old List.not_mem_nil
  rw [findInitBasisCpu]
  rcases isHost : hostScan S m n with ⟨t0, host⟩
  rw [isHost] at columns terms
  cases t0 with
  | none => exact fun _ member => absurd member List.not_mem_nil
  | some t0 => exact fun pair member => ⟨terms rfl pair member, columns pair member⟩

private theorem holds_findInitBasis (sized : ∀ term ∈ S, term.length = m * wordsFor n)
    (supported : initBasisGpuSupported m n = true) (shared : Nat → Words) :
    Holds (findInitBasis shared S.flatten S.length m n (kernelWords m)) (findInitBasisCpu S m n)
      m := by
  have status := findInitBasis_status sized supported shared
  rw [← download_findInitBasis sized supported shared]
  refine ⟨rfl, fun k inside => ?_⟩
  rw [DeviceResult.download]
  by_cases complete : (findInitBasis shared S.flatten S.length m n (kernelWords m)).rank = m
  · have isPair : k < (findInitBasis shared S.flatten S.length m n
      (kernelWords m)).pairs.length := by
      rwa [← status.2, complete]
    rw [if_pos complete, if_pos (status.1.mpr complete), List.getElem?_take_of_lt inside,
      List.getElem?_eq_getElem isPair, List.getD_eq_getElem _ _ isPair]
  · rw [if_neg complete, if_neg fun isZero => complete (status.1.mp isZero)]
    rfl

/-- The device search returns what the host search returns and ends with the same pivots, and
whatever the order of its threads, the kernel builds the generator of the host from it. -/
theorem initialization_agrees (sized : ∀ term ∈ S, term.length = m * wordsFor n)
    (supported : initBasisGpuSupported m n = true) (shared : Nat → Words) (memory : DeviceMemory) :
    ∃ device, launchFindInitBasisGpu shared S.flatten S.length m n = some device ∧
      device.download m = findInitBasisCpu S m n ∧
      (∀ p, bitAt (deviceScan shared S.flatten S.length m n (kernelWords m)).2.piv p =
        (hostScan S m n).2.pivotFound p) ∧
      (∃ schedule, (launchBuildFInitGpu memory device m n schedule).Finished) ∧
      ∀ schedule, (launchBuildFInitGpu memory device m n schedule).Finished →
        downloadF (launchBuildFInitGpu memory device m n schedule).memory device.t0 m n =
          ((buildFInitCpu (findInitBasisCpu S m n) m n).1.flatten,
            (buildFInitCpu (findInitBasisCpu S m n) m n).2) := by
  refine ⟨_, if_pos supported, download_findInitBasis sized supported shared, fun p => ?_, ?_, ?_⟩
  · exact ((searches_agree sized (le_maxM supported) shared).2.pivots p).symm
  · exact exists_finished (List.mem_finRange ·) _ _
  · intro schedule finished
    exact downloadF_eq (holds_findInitBasis sized supported shared) (findInitBasisCpu_below S m n)
      finished

theorem initialization_agrees_pair : ∃ device,
    launchFindInitBasisGpu (fun _ _ => 0) [1, 1, 2, 1] 2 2 2 = some device ∧
      device.download 2 = ⟨2, 2, [(0, 0), (1, 0)], []⟩ ∧
      ∃ schedule, downloadF (launchBuildFInitGpu (fun | .word _ => 1 | .gamma _ => 0) device 2 2
        schedule).memory device.t0 2 2 = ([1, 2, 0, 0, 0, 0, 0, 1, 0, 0, 1, 0], [2, 2, 2, 2]) := by
  rcases @initialization_agrees [[1, 1], [2, 1]] 2 2 (by decide) (by decide) (fun _ _ => 0)
    (fun | .word _ => 1 | .gamma _ => 0)
      with ⟨device, launched, download, -, ⟨schedule, finished⟩, same⟩
  refine ⟨device, launched, download.trans (by decide +kernel), schedule, ?_⟩
  exact (same schedule finished).trans (by decide +kernel)

end Search

end CudaMpqs.Lingen.InitBasis
