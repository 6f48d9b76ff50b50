import CudaMpqs.Matrix.Gf2Extraction
import CudaMpqs.Matrix.PackedExpanded

/-! # Branch character columns

The character bits of a merged row: the CPU XORs them over the leaves of the row's node in
the merge tree, the packed path XORs them at each merge. Either way they become columns
after all others. -/

namespace CudaMpqs

open BatchMerge Combine Function GpuPackedExpanded HostMatrixCSR PackedRow RowJoin

structure CharacterColumns where
  auxPrimes : List (BitVec 64)
  columns : List (List (BitVec 8))
  k : Nat
deriving DecidableEq

namespace CharacterColumns

/-! ## Selection -/

/-- The 64-bit walk; `none` when the fuel runs out. -/
def selectLoop (accepts : BitVec 64 → Bool) (k : Nat) :
    Nat → BitVec 64 → List (BitVec 64) → Option (List (BitVec 64))
  | 0, _, auxPrimes => if k ≤ auxPrimes.length then some auxPrimes else none
  | fuel + 1, candidate, auxPrimes =>
    if k ≤ auxPrimes.length then some auxPrimes
    else selectLoop accepts k fuel (candidate + 2)
      (if accepts candidate then auxPrimes ++ [candidate] else auxPrimes)

/-- `selectAuxPrimes` in branch mode, from the first odd number above the bound. A candidate
is accepted if it is prime and `N` is a square modulo it. -/
def selectAuxPrimes (accepts : BitVec 64 → Bool) (fuel : Nat) (lp1Bound : BitVec 64) (k : Nat) :
    Option (List (BitVec 64)) :=
  let candidate := lp1Bound + 1
  selectLoop accepts k fuel (if candidate &&& 1 = 0 then candidate + 1 else candidate) []

private theorem length_selectLoop {accepts : BitVec 64 → Bool} {k fuel : Nat}
    {candidate : BitVec 64}
    {auxPrimes found : List (BitVec 64)} (few : auxPrimes.length ≤ k)
    (selected : selectLoop accepts k fuel candidate auxPrimes = some found) : found.length = k := by
  induction fuel generalizing candidate auxPrimes with
  | zero =>
    rw [selectLoop] at selected
    split at selected
    · rename_i enough
      exact (congrArg List.length (Option.some.inj selected)).symm.trans
        (Nat.le_antisymm few enough)
    · cases selected
  | succ fuel induction =>
    rw [selectLoop] at selected
    split at selected
    · rename_i enough
      exact (congrArg List.length (Option.some.inj selected)).symm.trans
        (Nat.le_antisymm few enough)
    · refine induction ?_ selected
      split
      · rw [List.length_append, List.length_singleton]
        omega
      · exact few

theorem length_selectAuxPrimes {accepts : BitVec 64 → Bool} {fuel k : Nat} {lp1Bound : BitVec 64}
    {found : List (BitVec 64)} (selected : selectAuxPrimes accepts fuel lp1Bound k = some found) :
    found.length = k :=
  @length_selectLoop _ _ _ _ [] _ (Nat.zero_le k) selected

theorem selectLoop_mono {accepts : BitVec 64 → Bool} {k fuel more : Nat}
    {candidate : BitVec 64} {auxPrimes found : List (BitVec 64)} (longer : fuel ≤ more)
    (selected : selectLoop accepts k fuel candidate auxPrimes = some found) :
    selectLoop accepts k more candidate auxPrimes = some found := by
  induction fuel generalizing more candidate auxPrimes with
  | zero =>
    rw [selectLoop] at selected
    split at selected
    · next enough =>
        cases more with
        | zero => rw [selectLoop, if_pos enough, selected]
        | succ more => rw [selectLoop, if_pos enough, selected]
    · cases selected
  | succ fuel induction =>
    obtain ⟨more, rfl⟩ := Nat.exists_eq_add_of_le' (Nat.zero_lt_of_lt longer)
    rw [selectLoop] at selected ⊢
    split at selected
    · next enough => rw [if_pos enough, selected]
    · next few =>
        rw [if_neg few]
        exact induction (Nat.le_of_succ_le_succ longer) selected

/-! ## Columns -/

def unpack (k : Nat) (vectors : List (BitVec 32)) : List (List (BitVec 8)) :=
  (List.range k).map fun j => vectors.map fun v => ((v >>> j) &&& 1).setWidth 8

def leafCharBits (smooths partials : HostRelationBatch) (ns leaf : Nat) : BitVec 32 :=
  if leaf < ns then
    if leaf < smooths.charBits.length then smooths.charBits.getD leaf 0 else 0
  else
    let p := leaf - ns
    if p < partials.charBits.length then partials.charBits.getD p 0 else 0

def xorLeaves (charBits : Nat → BitVec 32) (leaves : List Nat) : BitVec 32 :=
  leaves.foldl (fun v leaf => v ^^^ charBits leaf) 0

def computeProductCharacterColumns (accepts : BitVec 64 → Bool) (fuel : Nat) (rowMap : List Nat)
    (tree : MergeTree) (smooths partials : HostRelationBatch) (ns : Nat) (lp1Bound : BitVec 64)
    (k : Nat) : Option CharacterColumns := do
  let auxPrimes ← selectAuxPrimes accepts fuel lp1Bound k
  let vectors ← rowMap.mapM fun node => do
    let leaves ← tree.expand fuel node
    return xorLeaves (leafCharBits smooths partials ns) leaves
  return ⟨auxPrimes, unpack k vectors, k⟩

def branchColumns (accepts : BitVec 64 → Bool) (fuel : Nat) (lp1Bound : BitVec 64) (k : Nat)
    (aliveCharBits : List (BitVec 32)) : Option CharacterColumns := do
  let auxPrimes ← selectAuxPrimes accepts fuel lp1Bound k
  return ⟨auxPrimes, unpack auxPrimes.length aliveCharBits, auxPrimes.length⟩

/-- What the other path yields is the same, and it is the bits of the rows as soon as the
primes are selected. -/
def Yields (accepts : BitVec 64 → Bool) (fuel : Nat) (lp1Bound : BitVec 64) (k : Nat)
    (vectors : List (BitVec 32)) (product : Option CharacterColumns) : Prop :=
  product = branchColumns accepts fuel lp1Bound k vectors ∧
    ∀ earlier ≤ fuel, ∀ auxPrimes, selectAuxPrimes accepts earlier lp1Bound k = some auxPrimes →
      product = some ⟨auxPrimes, unpack k vectors, k⟩

theorem yields_branchColumns (accepts : BitVec 64 → Bool) (fuel : Nat) (lp1Bound : BitVec 64)
    (k : Nat) (vectors : List (BitVec 32)) : Yields accepts fuel lp1Bound k vectors
      (branchColumns accepts fuel lp1Bound k vectors) := by
  refine ⟨rfl, fun earlier sufficient auxPrimes selected => ?_⟩
  have size := length_selectAuxPrimes selected
  rw [branchColumns, show selectAuxPrimes accepts fuel lp1Bound k = some auxPrimes from
    selectLoop_mono sufficient selected, ← size]
  rfl

def rowEntries (baseCol : Nat) (chars : CharacterColumns) (i : Nat) : List Nat :=
  ((List.range chars.k).filter fun j => (chars.columns.getD j []).getD i 0 = 1).map (baseCol + ·)

def appendCharacterColumns (csr : HostMatrixCSR) (chars : CharacterColumns) (nRels : Nat) :
    HostMatrixCSR :=
  (List.range nRels).foldl (fun out i => out.pushRow (csr.row i ++ rowEntries csr.nCols chars i))
    (empty (csr.nCols + chars.k))

/-! ## Leaves -/

private theorem foldl_xor (charBits : Nat → BitVec 32) (leaves : List Nat) (v : BitVec 32) :
    leaves.foldl (fun v leaf => v ^^^ charBits leaf) v = v ^^^ xorLeaves charBits leaves := by
  induction leaves generalizing v with
  | nil => exact BitVec.xor_zero.symm
  | cons leaf leaves induction =>
    have start : (0 : BitVec 32) ^^^ charBits leaf = charBits leaf := BitVec.zero_xor
    rw [xorLeaves, List.foldl_cons, List.foldl_cons, induction, induction, start,
      BitVec.xor_assoc]

theorem xorLeaves_append (charBits : Nat → BitVec 32) (left right : List Nat) :
    xorLeaves charBits (left ++ right) = xorLeaves charBits left ^^^ xorLeaves charBits right := by
  rw [xorLeaves, List.foldl_append, foldl_xor]
  rfl

@[simp] theorem xorLeaves_singleton (charBits : Nat → BitVec 32) (leaf : Nat) :
    xorLeaves charBits [leaf] = charBits leaf :=
  BitVec.zero_xor

/-! ## Trees of merges -/

/-- `resolve_char_bits`: below `numLeaves` an original row, from there on a workspace slot. -/
def resolveCharBits (numLeaves : Nat) (origCharBits : Nat → BitVec 32)
    (wsCharBits : List (BitVec 32)) (ptr : Nat) : BitVec 32 :=
  if ptr < numLeaves then origCharBits ptr else wsCharBits.getD (ptr - numLeaves) 0

def composeNode (numLeaves : Nat) (origCharBits : Nat → BitVec 32) (wsCharBits : List (BitVec 32))
    (node : Nat × Nat) : List (BitVec 32) :=
  wsCharBits ++ [resolveCharBits numLeaves origCharBits wsCharBits node.1 ^^^
    resolveCharBits numLeaves origCharBits wsCharBits node.2]

def compose (numLeaves : Nat) (origCharBits : Nat → BitVec 32) (nodes : List (Nat × Nat)) :
    List (BitVec 32) :=
  nodes.foldl (composeNode numLeaves origCharBits) []

/-- The bits of a node whose merges were executed in the order of the tree. -/
def mergedCharBits (tree : MergeTree) (origCharBits : Nat → BitVec 32) (idx : Nat) : BitVec 32 :=
  resolveCharBits tree.numLeaves origCharBits
    (compose tree.numLeaves origCharBits tree.internalNodes) idx

def Ordered (tree : MergeTree) : Prop :=
  ∀ k left right, tree.internalNodes[k]? = some (left, right) →
    left < tree.numLeaves + k ∧ right < tree.numLeaves + k

section Compose

variable {numLeaves : Nat} {origCharBits : Nat → BitVec 32}

theorem compose_concat (nodes : List (Nat × Nat)) (node : Nat × Nat) :
    compose numLeaves origCharBits (nodes ++ [node]) =
      composeNode numLeaves origCharBits (compose numLeaves origCharBits nodes) node :=
  List.foldl_append

theorem length_compose (nodes : List (Nat × Nat)) :
    (compose numLeaves origCharBits nodes).length = nodes.length := by
  induction nodes using List.reverseRecOn with
  | nil => rfl
  | append_singleton nodes node induction =>
    rw [compose_concat, composeNode, List.length_append, induction, List.length_append]
    rfl

private theorem resolveCharBits_append {wsCharBits : List (BitVec 32)} (added : List (BitVec 32))
    {ptr : Nat}
    (inside : ptr < numLeaves + wsCharBits.length) :
    resolveCharBits numLeaves origCharBits (wsCharBits ++ added) ptr =
      resolveCharBits numLeaves origCharBits wsCharBits ptr := by
  rw [resolveCharBits, resolveCharBits]
  split
  · rfl
  · exact List.getD_append _ _ _ _ (by omega)

private theorem getD_compose {nodes : List (Nat × Nat)} {k left right : Nat}
    (isNode : nodes[k]? = some (left, right)) (leftInside : left < numLeaves + k)
    (rightInside : right < numLeaves + k) :
    (compose numLeaves origCharBits nodes).getD k 0 =
      resolveCharBits numLeaves origCharBits (compose numLeaves origCharBits nodes) left ^^^
        resolveCharBits numLeaves origCharBits (compose numLeaves origCharBits nodes) right := by
  induction nodes using List.reverseRecOn with
  | nil => cases isNode
  | append_singleton nodes node induction =>
    have size := @length_compose numLeaves origCharBits nodes
    have bound : k < nodes.length + 1 := by
      simpa using (List.getElem?_eq_some_iff.mp isNode).1
    rw [compose_concat, composeNode, resolveCharBits_append _ (by omega),
      resolveCharBits_append _ (by omega)]
    rcases Nat.lt_succ_iff_lt_or_eq.mp bound with earlier | rfl
    · rw [List.getD_append _ _ _ _ (by omega)]
      exact induction ((List.getElem?_append_left earlier).symm.trans isNode)
    · rw [List.getElem?_concat_length] at isNode
      rw [Option.some.inj isNode, List.getD_append_right _ _ _ _ size.le, size, Nat.sub_self]
      rfl

end Compose

theorem exists_expansion {tree : MergeTree} (ordered : Ordered tree)
    (origCharBits : Nat → BitVec 32) {idx : Nat}
    (inside : idx < tree.numLeaves + tree.internalNodes.length) :
    ∃ leaves, tree.Expansion idx leaves ∧
      xorLeaves origCharBits leaves = mergedCharBits tree origCharBits idx := by
  induction idx using Nat.strong_induction_on with
  | _ idx induction =>
    by_cases isLeaf : idx < tree.numLeaves
    · refine ⟨[idx], .leaf idx isLeaf, ?_⟩
      rw [xorLeaves_singleton, mergedCharBits, resolveCharBits, if_pos isLeaf]
    · have found : ∃ node, tree.internalNodes[idx - tree.numLeaves]? = some node :=
        ⟨_, List.getElem?_eq_getElem (by omega)⟩
      rcases found with ⟨⟨left, right⟩, isNode⟩
      have children := ordered _ left right isNode
      rcases induction left (by omega) (by omega) with ⟨leftLeaves, leftExpansion, leftXor⟩
      rcases induction right (by omega) (by omega) with ⟨rightLeaves, rightExpansion, rightXor⟩
      refine ⟨_, .node idx left right _ _ (by omega) isNode leftExpansion rightExpansion, ?_⟩
      rw [xorLeaves_append, leftXor, rightXor, BitVec.xor_comm, mergedCharBits, mergedCharBits,
        mergedCharBits, ← getD_compose isNode (by omega) (by omega)]
      exact (if_neg isLeaf).symm

theorem computeProductCharacterColumns_eq (accepts : BitVec 64 → Bool) (lp1Bound : BitVec 64)
    (k : Nat) {rowMap : List Nat} {tree : MergeTree} {smooths partials : HostRelationBatch}
    {ns : Nat} {vectors : List (BitVec 32)}
    (expansions : List.Forall₂ (fun idx v => ∃ leaves, tree.Expansion idx leaves ∧
      xorLeaves (leafCharBits smooths partials ns) leaves = v) rowMap vectors) :
    ∃ enough, ∀ fuel, enough ≤ fuel → Yields accepts fuel lp1Bound k vectors
      (computeProductCharacterColumns accepts fuel rowMap tree smooths partials ns lp1Bound k) := by
  have expanded : ∃ enough, ∀ fuel, enough ≤ fuel → (rowMap.mapM fun node => do
        let leaves ← tree.expand fuel node
        return xorLeaves (leafCharBits smooths partials ns) leaves) = some vectors := by
    induction expansions with
    | nil => exact ⟨0, fun _ _ => rfl⟩
    | cons isXor _ induction =>
      rcases induction with ⟨enough, rest⟩
      rcases isXor with ⟨leaves, expansion, rfl⟩
      rcases expansion.expand_eq with ⟨enoughFirst, first⟩
      refine ⟨max enoughFirst enough, ?_⟩
      intro fuel sufficient
      rw [List.mapM_cons, rest fuel ((le_max_right _ _).trans sufficient),
        first fuel ((le_max_left _ _).trans sufficient)]
      rfl
  rcases expanded with ⟨enough, expanded⟩
  refine ⟨enough, ?_⟩
  intro fuel sufficient
  have same : computeProductCharacterColumns accepts fuel rowMap tree smooths partials ns
      lp1Bound k = branchColumns accepts fuel lp1Bound k vectors := by
    rw [computeProductCharacterColumns, expanded fuel sufficient, branchColumns]
    cases selected : selectAuxPrimes accepts fuel lp1Bound k with
    | none => rfl
    | some auxPrimes =>
      have size := length_selectAuxPrimes selected
      subst size
      rfl
  rw [same]
  exact yields_branchColumns accepts fuel lp1Bound k vectors

/-! ## Merges on the device -/

structure Recording (ι : Type) where
  tree : MergeTree
  nodeOf : ι → Nat

variable {ι : Type} [DecidableEq ι]

def Recording.merge (recording : Recording ι) (pair : ι × ι) : Recording ι :=
  let tree := recording.tree.pushNode (recording.nodeOf pair.1) (recording.nodeOf pair.2)
  ⟨tree, update recording.nodeOf pair.1 tree.lastNode⟩

def Recording.copied {rows : Nat} (recording : Recording (Fin rows)) (rowMap : List Nat) (r : Nat) :
    Nat :=
  match rowMap[r]? with
  | some source => if inside : source < rows then recording.nodeOf ⟨source, inside⟩ else 0
  | none => 0

/-- The bits of each row are the XOR of those of the leaves of its node. -/
def Recording.Follows (charBits : Nat → BitVec 32) (recording : Recording ι)
    (table : ι → Option PackedRow) : Prop :=
  ∀ row packed, table row = some packed → ∃ leaves,
    recording.tree.Expansion (recording.nodeOf row) leaves ∧
      xorLeaves charBits leaves = packed.charBits

section Merges

variable {charBits : Nat → BitVec 32} {recording : Recording ι} {table : ι → Option PackedRow}

theorem Recording.Follows.merge (follows : recording.Follows charBits table) (mont : Montgomery)
    {pair : ι × ι} (joinable : Joinable table pair) :
    (recording.merge pair).Follows charBits (joinPair (join mont) table pair) := by
  rcases joinable.exists_values with ⟨left, right, isLeft, isRight⟩
  rcases follows _ _ isLeft with ⟨leftLeaves, leftExpansion, leftXor⟩
  rcases follows _ _ isRight with ⟨rightLeaves, rightExpansion, rightXor⟩
  intro row packed isRow
  rw [joinPair_eq isLeft isRight, update_apply, update_apply] at isRow
  split_ifs at isRow with consumed grown
  · subst grown
    refine ⟨rightLeaves ++ leftLeaves, ?_, ?_⟩
    · have expansion := MergeTree.expansion_lastNode leftExpansion rightExpansion
      rwa [← @update_self _ _ _ pair.1 (MergeTree.lastNode _) recording.nodeOf] at expansion
    · rw [xorLeaves_append, leftXor, rightXor, BitVec.xor_comm, ← Option.some.inj isRow]
      rfl
  · rcases follows _ _ isRow with ⟨leaves, expansion, isXor⟩
    have kept : (recording.merge pair).nodeOf row = recording.nodeOf row := update_of_ne grown _ _
    rw [← kept] at expansion
    exact ⟨leaves, expansion.pushNode _ _, isXor⟩

theorem Recording.Follows.replay (follows : recording.Follows charBits table) {mont : Montgomery}
    {pairs : List (ι × ι)} (legal : Legal (join mont) table pairs) :
    (pairs.foldl Recording.merge recording).Follows charBits (replay (join mont) table pairs) := by
  induction pairs generalizing recording table with
  | nil => exact follows
  | cons pair pairs induction => exact induction (follows.merge mont legal.1) legal.2

end Merges

structure RecordedHistory (originals : Nat) where
  history : History originals
  recording : Recording (Fin history.rows)

variable {originals : Nat}

/-- Launches and replacements in any order, every merge recorded. -/
inductive Recorded (first : PackedCsr originals) : RecordedHistory originals → Prop where
  | start (workspace : Workspace) :
      Recorded first ⟨.start first workspace, ⟨⟨originals, []⟩, Fin.val⟩⟩
  | launch {history : History originals} {recording : Recording (Fin history.rows)}
      (recorded : Recorded first ⟨history, recording⟩)
      (candidates : List (MergeCandidate history.rows))
      (schedule : List (history.launch candidates).Thread)
      (finished : (runKernel (history.launch candidates) schedule).Finished) :
      Recorded first ⟨history.launched candidates schedule finished,
        (launchedPairs (history.launch candidates) schedule).foldl Recording.merge recording⟩
  | replace {history : History originals} {recording : Recording (Fin history.rows)}
      (recorded : Recorded first ⟨history, recording⟩) {csr : DevicePackedCsr}
      {rowMap colMap : List Nat} (replacement : history.Replacement csr rowMap colMap) {rows : Nat}
      {next : PackedCsr rows} (stores : next.Stores history.matrix.mont csr)
      (workspace : Workspace) :
      Recorded first ⟨history.replaced rowMap colMap next workspace,
        ⟨recording.tree, fun row => recording.copied rowMap row⟩⟩

theorem Recorded.follows {first : PackedCsr originals} {charBits : Nat → BitVec 32}
    (start : ∀ row, (first.csr row).charBits = charBits row) {recorded : RecordedHistory originals}
    (isRecorded : Recorded first recorded) :
    recorded.recording.Follows charBits
      (recorded.history.device.table recorded.history.matrix.toContext) := by
  induction isRecorded with
  | start workspace =>
    intro row packed isRow
    refine ⟨[row], .leaf _ row.isLt, ?_⟩
    rw [xorLeaves_singleton, ← start row]
    exact congrArg PackedRow.charBits (Option.some.inj isRow)
  | @launch history recording isRecorded candidates schedule finished induction =>
    rcases @launch_replays _ (history.launch candidates) history.reached _ finished with
      ⟨legal, table⟩
    have follows : Recording.Follows charBits _ (replay _ _ _) :=
      Recording.Follows.replay induction legal
    exact table ▸ follows
  | @replace history recording isRecorded csr rowMap colMap replacement rows next stores workspace
      induction =>
      intro row packed isRow
      rcases History.exists_copied replacement.relocated stores row with
        ⟨source, isSource, -, isTable⟩
      rcases induction _ _ isTable with ⟨leaves, expansion, isXor⟩
      have node : recording.copied rowMap row = recording.nodeOf source := by
        rw [Recording.copied, isSource]
        exact dif_pos source.isLt
      refine ⟨leaves, ?_, ?_⟩
      · change recording.tree.Expansion (recording.copied rowMap row) leaves
        rwa [node]
      · rw [isXor, ← Option.some.inj isRow]
        rfl

def RecordedHistory.nodeAt (recorded : RecordedHistory originals) (r : Nat) : Nat :=
  if inside : r < recorded.history.rows then recorded.recording.nodeOf ⟨r, inside⟩ else 0

def gatherCharBits {rows : Nat} (matrix : PackedCsr rows) (device : Device rows)
    (activeRowMap : List Nat) : List (BitVec 32) :=
  activeRowMap.map fun mergedRow => (sourceRow matrix.toContext device mergedRow).charBits

theorem charBits_packed {smooths partials : HostRelationBatch} {fbSize : Nat}
    {buffer : Nat → PackedEntry} {result : PackedExpandedResult}
    (built : gpuBuildPackedMatrix smooths partials fbSize buffer = some result) {r : Nat}
    (inside : r < result.csr.rows.length) :
    (result.csr.rowAt r).charBits = leafCharBits smooths partials smooths.numRelations r := by
  have same := gpuBuildPackedMatrix_eq buffer built
  subst same
  have absent : ∀ (bits : List (BitVec 32)) (idx : Nat),
      (if idx < bits.length then bits.getD idx 0 else 0) = bits.getD idx 0 := by
    intro bits idx
    split
    · rfl
    · rename_i outside
      exact (List.getD_eq_default _ _ (Nat.le_of_not_lt outside)).symm
  have sources : r < (rowSources smooths partials).length := by simpa using inside
  have sizes : (smooths.relations.map (RowSource.mk true)).length = smooths.numRelations := by
    simp [HostRelationBatch.relations]
  rw [DevicePackedCsr.rowAt, List.getD_eq_getElem _ _ inside, List.getElem_map, leafCharBits]
  simp only [absent, rowSources]
  split
  · rename_i smooth
    rw [List.getElem_append_left (smooth.trans_eq sizes.symm), List.getElem_map]
    simp [packRow, HostRelationBatch.relations, HostRelationBatch.relation]
  · rename_i partialRow
    rw [List.getElem_append_right (sizes.le.trans (Nat.le_of_not_lt partialRow)), List.getElem_map]
    simp [packRow, HostRelationBatch.relations, HostRelationBatch.relation]

/-! ## The matrix -/

/-- The end of `preprocess` in branch mode; a matrix without rows gets no columns. -/
def appendBranchColumns (accepts : BitVec 64 → Bool) (fuel : Nat) (lp1Bound : BitVec 64) (k : Nat)
    (activeCsr : HostMatrixCSR) (aliveCharBits : List (BitVec 32)) : Option HostMatrixCSR :=
  if aliveCharBits.length = 0 then some activeCsr
  else do
    let branchChars ← branchColumns accepts fuel lp1Bound k aliveCharBits
    return appendCharacterColumns activeCsr branchChars aliveCharBits.length

def setBits (baseCol k : Nat) (v : BitVec 32) : List Nat :=
  ((List.range k).filter v.getLsbD).map (baseCol + ·)

private theorem bit_eq_one_iff (v : BitVec 32) (j : Nat) :
    ((v >>> j) &&& 1).setWidth 8 = (1 : BitVec 8) ↔ v.getLsbD j = true := by
  have masked : ((v >>> j) &&& 1).setWidth 8 = (BitVec.ofBool (v.getLsbD j)).setWidth 8 := by
    apply BitVec.eq_of_getLsbD_eq
    intro i inside
    cases i with
    | zero => simp
    | succ i => simp [BitVec.getLsbD_one]
  rw [masked]
  cases v.getLsbD j <;> decide

theorem rowEntries_unpack (baseCol : Nat) (auxPrimes : List (BitVec 64)) (k : Nat)
    {vectors : List (BitVec 32)} {i : Nat} (inside : i < vectors.length) :
    rowEntries baseCol ⟨auxPrimes, unpack k vectors, k⟩ i =
      setBits baseCol k (vectors.getD i 0) := by
  rw [rowEntries, setBits]
  congr 1
  apply List.filter_congr
  intro j member
  have bound := List.mem_range.mp member
  have column : (unpack k vectors).getD j [] =
      vectors.map fun v : BitVec 32 => ((v >>> j) &&& 1).setWidth 8 := by
    rw [unpack, List.getD_eq_getElem _ _ (by simpa using bound), List.getElem_map,
      List.getElem_range]
  rw [column, List.getD_eq_getElem _ _ (by simpa using inside), List.getElem_map,
    List.getD_eq_getElem _ _ inside]
  rw [Bool.eq_iff_iff, decide_eq_true_iff]
  exact bit_eq_one_iff _ _

theorem mem_setBits {baseCol k c : Nat} {v : BitVec 32} (member : c ∈ setBits baseCol k v) :
    baseCol ≤ c ∧ c < baseCol + k := by
  rcases List.mem_map.mp member with ⟨j, isSet, rfl⟩
  have bound := List.mem_range.mp (List.mem_of_mem_filter isSet)
  omega

private theorem ascending_setBits (baseCol k : Nat) (v : BitVec 32) :
    (setBits baseCol k v).Pairwise (· < ·) :=
  List.pairwise_map.mpr ((List.pairwise_lt_range.filter _).imp fun less =>
    Nat.add_lt_add_left less baseCol)

theorem appendBranchColumns_spec {accepts : BitVec 64 → Bool} {fuel : Nat} {lp1Bound : BitVec 64}
    {k : Nat} {csr appended : HostMatrixCSR} (wellFormed : csr.WellFormed)
    {aliveCharBits : List (BitVec 32)} (size : aliveCharBits.length = csr.nRows)
    (result : appendBranchColumns accepts fuel lp1Bound k csr aliveCharBits = some appended) :
    appended.WellFormed ∧ appended.nRows = csr.nRows ∧ ∀ i < csr.nRows,
      appended.row i = csr.row i ++ setBits csr.nCols k (aliveCharBits.getD i 0) := by
  rw [appendBranchColumns] at result
  split at result
  · rename_i none
    rw [← Option.some.inj result]
    exact ⟨wellFormed, rfl, fun i inside => by omega⟩
  rcases Option.bind_eq_some_iff.mp result with ⟨branchChars, isColumns, isAppended⟩
  rcases Option.bind_eq_some_iff.mp isColumns with ⟨auxPrimes, selected, isChars⟩
  rw [← Option.some.inj isAppended, ← Option.some.inj isChars, length_selectAuxPrimes selected,
    size]
  let rows := (List.range csr.nRows).map fun i =>
    csr.row i ++ setBits csr.nCols k (aliveCharBits.getD i 0)
  have isRows : appendCharacterColumns csr ⟨auxPrimes, unpack k aliveCharBits, k⟩ csr.nRows =
      ofRows (csr.nCols + k) rows := by
    rw [appendCharacterColumns, ofRows, List.foldl_map]
    apply List.foldl_ext
    intro out i member
    rw [rowEntries_unpack _ _ _ ((List.mem_range.mp member).trans_eq size.symm)]
  have length : rows.length = csr.nRows := by simp [rows]
  rw [isRows]
  refine ⟨wellFormed_ofRows ?_ ?_, (nRows_ofRows _ _).trans length, ?_⟩
  · intro cols isRow c present
    rcases List.mem_map.mp isRow with ⟨i, inside, rfl⟩
    rcases List.mem_append.mp present with old | new
    · have bound := wellFormed.bound i (List.mem_range.mp inside) c old
      omega
    · exact (mem_setBits new).2
  · intro cols isRow
    rcases List.mem_map.mp isRow with ⟨i, inside, rfl⟩
    have bound := wellFormed.bound i (List.mem_range.mp inside)
    refine List.pairwise_append.mpr
      ⟨wellFormed.ascending i (List.mem_range.mp inside), ascending_setBits _ _ _, ?_⟩
    intro c old c' new
    exact Nat.lt_of_lt_of_le (bound c old) (mem_setBits new).1
  · intro i inside
    rw [row_ofRows _ _ (inside.trans_eq length.symm),
      List.getD_eq_getElem _ _ (inside.trans_eq length.symm), List.getElem_map, List.getElem_range]

/-- The branch characters of both paths agree, for any merge tree and for any merges that the
device executes: the columns are the bits of the rows, and appended they keep the rows
ascending and in range. -/
theorem branchCharacters_agree (accepts : BitVec 64 → Bool) (lp1Bound : BitVec 64) (k : Nat)
    (smooths partials : HostRelationBatch) :
    (∀ (tree : MergeTree) (rowMap : List Nat), Ordered tree →
      (∀ idx ∈ rowMap, idx < tree.numLeaves + tree.internalNodes.length) →
      ∃ enough, ∀ fuel, enough ≤ fuel → Yields accepts fuel lp1Bound k
        (rowMap.map (mergedCharBits tree (leafCharBits smooths partials smooths.numRelations)))
        (computeProductCharacterColumns accepts fuel rowMap tree smooths partials
          smooths.numRelations lp1Bound k)) ∧
    (∀ (fbSize : Nat) (buffer : Nat → PackedEntry) (result : PackedExpandedResult),
      gpuBuildPackedMatrix smooths partials fbSize buffer = some result →
      ∀ (originals : Nat) (mont : Montgomery) (first : PackedCsr originals),
        first.Stores mont result.csr →
      ∀ (recorded : RecordedHistory originals), Recorded first recorded →
      ∀ activeRowMap : List Nat, (∀ r ∈ activeRowMap, ∃ inside : r < recorded.history.rows,
        (recorded.history.device.rowPtr ⟨r, inside⟩).isSome) →
      ∃ enough, ∀ fuel, enough ≤ fuel → Yields accepts fuel lp1Bound k
        (gatherCharBits recorded.history.matrix recorded.history.device activeRowMap)
        (computeProductCharacterColumns accepts fuel (activeRowMap.map recorded.nodeAt)
          recorded.recording.tree smooths partials smooths.numRelations lp1Bound k)) ∧
    ∀ (csr : HostMatrixCSR) (aliveCharBits : List (BitVec 32)), csr.WellFormed →
      aliveCharBits.length = csr.nRows → ∀ fuel appended,
      appendBranchColumns accepts fuel lp1Bound k csr aliveCharBits = some appended →
      appended.WellFormed ∧ appended.nRows = csr.nRows ∧ ∀ i < csr.nRows,
        appended.row i = csr.row i ++ setBits csr.nCols k (aliveCharBits.getD i 0) := by
  refine ⟨?_, ?_, ?_⟩
  · intro tree rowMap ordered inside
    apply computeProductCharacterColumns_eq
    rw [List.forall₂_map_right_iff, List.forall₂_same]
    exact fun idx member => exists_expansion ordered _ (inside idx member)
  · intro fbSize buffer result built originals mont first stores recorded isRecorded activeRowMap
      alive
    have start : ∀ row : Fin originals, (first.csr row).charBits =
        leafCharBits smooths partials smooths.numRelations row := by
      intro row
      rw [stores.row]
      exact charBits_packed built (row.isLt.trans_eq stores.count)
    have follows := isRecorded.follows start
    apply computeProductCharacterColumns_eq
    rw [gatherCharBits, List.forall₂_map_right_iff, List.forall₂_map_left_iff, List.forall₂_same]
    intro r member
    rcases alive r member with ⟨inside, isAlive⟩
    rcases follows _ _ (table_sourceRow inside isAlive) with ⟨leaves, expansion, isXor⟩
    have node : recorded.nodeAt r = recorded.recording.nodeOf ⟨r, inside⟩ := dif_pos inside
    exact ⟨leaves, node ▸ expansion, isXor⟩
  · intro csr aliveCharBits wellFormed size fuel appended result
    exact appendBranchColumns_spec wellFormed size result

/-! ## Two relations -/

def charSmooths : HostRelationBatch :=
  (HostRelationBatch.empty.push ⟨UInt512.ofUInt32 3, 1, 0, 1, 5, [(0, 1)]⟩).push
    ⟨UInt512.ofUInt32 4, 1, 0, 1, 3, [(0, 1)]⟩

def charCsr : DevicePackedCsr where
  rows := [⟨[(2, 1)], UInt512.ofUInt32 3, 1, 0, 5⟩, ⟨[(2, 1)], UInt512.ofUInt32 4, 1, 0, 3⟩]
  nCols := 3

def charMont : Montgomery := Montgomery.ofModulus (UInt512.ofUInt32 7)

def charFirst : PackedCsr 2 :=
  sizedCsr exactFloats charMont charCsr (by decide) two_lt_rows

def charStart : History 2 := .start charFirst emptyWorkspace

def charCandidates : List (MergeCandidate 2) := [⟨⟨0, Nat.two_pos⟩, ⟨1, Nat.one_lt_two⟩, 2⟩]

def charLaunch : Launch 2 := charStart.launch charCandidates

def charTurns : List charLaunch.Thread := List.replicate 40 ⟨0, by decide⟩

theorem charTurns_finished : (runKernel charLaunch charTurns).Finished := by decide +kernel

def charRecorded : RecordedHistory 2 where
  history := charStart.launched charCandidates charTurns charTurns_finished
  recording := (launchedPairs charLaunch charTurns).foldl Recording.merge ⟨⟨2, []⟩, Fin.val⟩

def charPrimes : List (BitVec 64) := (List.range 32).map fun i => BitVec.ofNat 64 (101 + 2 * i)

/-- In the tree the second relation occurs twice below the last node, and cancels. -/
theorem branchCharacters_agree_twins :
    mergedCharBits ⟨2, [(0, 1), (2, 1)]⟩ (leafCharBits charSmooths .empty 2) 3 = 5 ∧
    (∃ fuel, computeProductCharacterColumns (fun _ => true) fuel [3] ⟨2, [(0, 1), (2, 1)]⟩
        charSmooths .empty 2 100 32 =
      some ⟨charPrimes, [[1], [0], [1]] ++ List.replicate 29 [0], 32⟩) ∧
    gatherCharBits charRecorded.history.matrix charRecorded.history.device [0] = [6] ∧
    (∃ fuel, computeProductCharacterColumns (fun _ => true) fuel ([0].map charRecorded.nodeAt)
        charRecorded.recording.tree charSmooths .empty 2 100 32 =
      some ⟨charPrimes, [[0], [1], [1]] ++ List.replicate 29 [0], 32⟩) ∧
    ∃ appended,
      appendBranchColumns (fun _ => true) 32 100 32 (ofRows 2 [[0, 1]]) [6] = some appended ∧
      appended.WellFormed ∧ appended.nRows = 1 ∧ appended.row 0 = [0, 1, 3, 4] := by
  rcases branchCharacters_agree (fun _ => true) 100 32 charSmooths .empty with
    ⟨trees, launches, columns⟩
  have selected : selectAuxPrimes (fun _ => true) 32 100 32 = some charPrimes := by
    decide +kernel
  have ordered : Ordered ⟨2, [(0, 1), (2, 1)]⟩ := by
    intro k left right isNode
    match k, isNode with
    | 0, isNode =>
      injection isNode with same
      injection same with isLeft isRight
      change left < 2 + 0 ∧ right < 2 + 0
      omega
    | 1, isNode =>
      injection isNode with same
      injection same with isLeft isRight
      change left < 2 + 1 ∧ right < 2 + 1
      omega
  have recorded : Recorded charFirst charRecorded :=
    .launch (.start emptyWorkspace) charCandidates charTurns charTurns_finished
  refine ⟨by decide +kernel, ?_, by decide +kernel, ?_, ?_⟩
  · have bits : unpack 32 ([3].map (mergedCharBits ⟨2, [(0, 1), (2, 1)]⟩
        (leafCharBits charSmooths .empty charSmooths.numRelations))) =
          [[1], [0], [1]] ++ List.replicate 29 [0] := by decide +kernel
    rcases trees _ [3] ordered (by decide) with ⟨enough, yields⟩
    exact ⟨_, bits ▸ (yields _ (Nat.le_add_right enough 32)).2 32 (Nat.le_add_left 32 enough)
      charPrimes selected⟩
  · have bits : unpack 32 (gatherCharBits charRecorded.history.matrix
        charRecorded.history.device [0]) = [[0], [1], [1]] ++ List.replicate 29 [0] := by
      decide +kernel
    rcases launches 1 (fun _ => (0, 0)) ⟨charCsr, 0⟩ (by decide +kernel) 2 charMont charFirst
      ⟨rfl, fun _ => rfl, rfl, rfl⟩ charRecorded recorded [0] (by decide +kernel)
      with ⟨enough, yields⟩
    exact ⟨_, bits ▸ (yields _ (Nat.le_add_right enough 32)).2 32 (Nat.le_add_left 32 enough)
      charPrimes selected⟩
  · have appends : appendBranchColumns (fun _ => true) 32 100 32 (ofRows 2 [[0, 1]]) [6] =
        some (appendCharacterColumns (ofRows 2 [[0, 1]]) ⟨charPrimes, unpack 32 [6], 32⟩ 1) := by
      rw [appendBranchColumns, branchColumns, selected]
      rfl
    rcases columns (ofRows 2 [[0, 1]]) [6] (by decide) rfl 32 _ appends with
      ⟨wellFormed, nRows, row⟩
    exact ⟨_, appends, wellFormed, nRows, (row 0 (by decide)).trans (by decide)⟩

end CharacterColumns

end CudaMpqs
