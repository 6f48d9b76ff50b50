import Mathlib.Algebra.Order.BigOperators.Group.List
import CudaMpqs.Common.Relation
import CudaMpqs.Foundation.InclusiveScan
import CudaMpqs.Foundation.Transition

/-! # Appending to a relation batch on the device

The threads of a warp take their relation slots and their factor slots together,
from two 32-bit counters packed into one word. The leader of the warp checks the
relation capacity when it reserves; a thread checks the factor capacity when it
writes. -/

namespace CudaMpqs

open Transition InclusiveScan

/-! ## The dual counter -/

def packRf (relations factors : Nat) : Nat := relations * 2 ^ 32 + factors

def unpackR (dual : Nat) : Nat := dual / 2 ^ 32

def unpackF (dual : Nat) : Nat := dual % 2 ^ 32

theorem unpackR_packRf (relations : Nat) {factors : Nat} (fits : factors < 2 ^ 32) :
    unpackR (packRf relations factors) = relations := by
  unfold unpackR packRf
  omega

theorem unpackF_packRf (relations : Nat) {factors : Nat} (fits : factors < 2 ^ 32) :
    unpackF (packRf relations factors) = factors := by
  unfold unpackF packRf
  omega

/-! ## The buffer -/

inductive SoaCell where
  | sqrtQ (i : Nat)
  | signs (i : Nat)
  | val2Exps (i : Nat)
  | largePrimes (i : Nat)
  | charBits (i : Nat)
  | factorOffsets (i : Nat)
  | factorIndices (k : Nat)
  | factorCounts (k : Nat)
deriving DecidableEq

def SoaCell.Value : SoaCell → Type
  | .sqrtQ _ => UInt512
  | .signs _ => BitVec 8
  | .val2Exps _ => BitVec 32
  | .largePrimes _ => BitVec 128
  | .charBits _ => BitVec 32
  | .factorOffsets _ => Nat
  | .factorIndices _ => Nat
  | .factorCounts _ => BitVec 8

/-- `none` is a word that was never written. -/
abbrev SoaMemory := (cell : SoaCell) → Option cell.Value

abbrev SoaStore := (cell : SoaCell) × cell.Value

structure SoaHolds (memory : SoaMemory) (i start : Nat) (row : Relation) : Prop where
  sqrtQ : memory (.sqrtQ i) = some row.sqrtQ
  signs : memory (.signs i) = some row.sign
  val2Exps : memory (.val2Exps i) = some row.val2Exp
  largePrimes : memory (.largePrimes i) = some row.largePrime
  charBits : memory (.charBits i) = some row.charBits
  offset : memory (.factorOffsets i) = some start
  nextOffset : memory (.factorOffsets (i + 1)) = some (start + row.factors.length)
  factors : ∀ k (inside : k < row.factors.length),
    memory (.factorIndices (start + k)) = some row.factors[k].1 ∧
      memory (.factorCounts (start + k)) = some row.factors[k].2

structure SoaCommitted (maxRelations maxFactors : Nat) (dual : Nat) (memory : SoaMemory)
    (rows : List Relation) : Prop where
  relations : unpackR dual = rows.length
  factors : unpackF dual = factorTotal rows
  relationCapacity : rows.length ≤ maxRelations
  factorCapacity : factorTotal rows ≤ maxFactors
  holds : ∀ front row back, rows = front ++ row :: back →
    SoaHolds memory front.length (factorTotal front) row

/-! ## The stores of one row -/

def rowStores (i start : Nat) (row : Relation) : List SoaStore :=
  [⟨.sqrtQ i, row.sqrtQ⟩, ⟨.signs i, row.sign⟩, ⟨.val2Exps i, row.val2Exp⟩,
    ⟨.largePrimes i, row.largePrime⟩, ⟨.charBits i, row.charBits⟩,
    ⟨.factorOffsets i, start⟩, ⟨.factorOffsets (i + 1), start + row.factors.length⟩] ++
  row.factors.zipIdx.flatMap fun entry =>
    [⟨.factorIndices (start + entry.2), entry.1.1⟩, ⟨.factorCounts (start + entry.2), entry.1.2⟩]

theorem SoaHolds.rowStores {memory : SoaMemory} {i start : Nat} {row : Relation}
    (holds : SoaHolds memory i start row) {store : SoaStore}
    (member : store ∈ rowStores i start row) : memory store.1 = some store.2 := by
  rcases List.mem_append.mp member with word | factor
  · simp only [List.mem_cons, List.not_mem_nil, or_false] at word
    rcases word with rfl | rfl | rfl | rfl | rfl | rfl | rfl
    · exact holds.sqrtQ
    · exact holds.signs
    · exact holds.val2Exps
    · exact holds.largePrimes
    · exact holds.charBits
    · exact holds.offset
    · exact holds.nextOffset
  · rcases List.mem_flatMap.mp factor with ⟨⟨item, k⟩, entry, listed⟩
    rcases List.getElem?_eq_some_iff.mp (List.mk_mem_zipIdx_iff_getElem?.mp entry) with
      ⟨inside, rfl⟩
    simp only [List.mem_cons, List.not_mem_nil, or_false] at listed
    rcases listed with rfl | rfl
    · exact (holds.factors k inside).1
    · exact (holds.factors k inside).2

theorem soaHolds_of_rowStores {memory : SoaMemory} {i start : Nat} {row : Relation}
    (stored : ∀ store ∈ rowStores i start row, memory store.1 = some store.2) :
    SoaHolds memory i start row := by
  have factor : ∀ k (inside : k < row.factors.length), ∀ store : SoaStore,
      store ∈ ([⟨.factorIndices (start + k), row.factors[k].1⟩,
        ⟨.factorCounts (start + k), row.factors[k].2⟩] : List SoaStore) →
      memory store.1 = some store.2 := by
    intro k inside store member
    apply stored
    apply List.mem_append_right
    apply List.mem_flatMap.mpr
    exact ⟨(row.factors[k], k), List.mk_mem_zipIdx_iff_getElem?.mpr
      (List.getElem?_eq_getElem inside), member⟩
  constructor
  · exact stored ⟨.sqrtQ i, row.sqrtQ⟩ (by simp [rowStores])
  · exact stored ⟨.signs i, row.sign⟩ (by simp [rowStores])
  · exact stored ⟨.val2Exps i, row.val2Exp⟩ (by simp [rowStores])
  · exact stored ⟨.largePrimes i, row.largePrime⟩ (by simp [rowStores])
  · exact stored ⟨.charBits i, row.charBits⟩ (by simp [rowStores])
  · exact stored ⟨.factorOffsets i, start⟩ (by simp [rowStores])
  · exact stored ⟨.factorOffsets (i + 1), start + row.factors.length⟩ (by simp [rowStores])
  · intro k inside
    constructor
    · exact factor k inside ⟨.factorIndices (start + k), row.factors[k].1⟩
        List.mem_cons_self
    · exact factor k inside ⟨.factorCounts (start + k), row.factors[k].2⟩
        (List.mem_cons_of_mem _ List.mem_cons_self)

def rowFactors (rows : List Relation) : List Factor := rows.flatMap (·.factors)

def soaContent (rows : List Relation) : SoaMemory
  | .sqrtQ i => rows[i]?.map (·.sqrtQ)
  | .signs i => rows[i]?.map (·.sign)
  | .val2Exps i => rows[i]?.map (·.val2Exp)
  | .largePrimes i => rows[i]?.map (·.largePrime)
  | .charBits i => rows[i]?.map (·.charBits)
  | .factorOffsets i => if i ≤ rows.length then some (factorTotal (rows.take i)) else none
  | .factorIndices k => (rowFactors rows)[k]?.map Prod.fst
  | .factorCounts k => (rowFactors rows)[k]?.map Prod.snd

theorem length_rowFactors (rows : List Relation) : (rowFactors rows).length = factorTotal rows := by
  simp [factorTotal, rowFactors, List.length_flatMap]

theorem rowFactors_append (left right : List Relation) :
    rowFactors (left ++ right) = rowFactors left ++ rowFactors right :=
  List.flatMap_append

theorem soaContent_of_append {rows : List Relation} (added : List Relation)
    {cell : SoaCell} {value : cell.Value} (held : soaContent rows cell = some value) :
    soaContent (rows ++ added) cell = some value := by
  have extends_ : ∀ {β γ : Type} {left right : List β} {f : β → γ} {k : Nat} {image : γ},
      left[k]?.map f = some image → (left ++ right)[k]?.map f = some image := by
    intro β γ left right f k image found
    rcases Option.map_eq_some_iff.mp found with ⟨item, there, rfl⟩
    rcases List.getElem?_eq_some_iff.mp there with ⟨inside, _⟩
    rw [List.getElem?_append_left inside, there, Option.map_some]
  cases cell with
  | sqrtQ i => exact extends_ held
  | signs i => exact extends_ held
  | val2Exps i => exact extends_ held
  | largePrimes i => exact extends_ held
  | charBits i => exact extends_ held
  | factorOffsets i =>
    rw [soaContent] at held ⊢
    split at held
    next inside =>
        rw [if_pos (by rw [List.length_append]; omega), List.take_append_of_le_length inside]
        exact held
    next => cases held
  | factorIndices k =>
    change ((rowFactors (rows ++ added))[k]?.map Prod.fst : Option Nat) = some value
    rw [rowFactors_append]
    exact extends_ held
  | factorCounts k =>
    change ((rowFactors (rows ++ added))[k]?.map Prod.snd : Option (BitVec 8)) = some value
    rw [rowFactors_append]
    exact extends_ held

theorem soaContent_of_mem_rowStores {front back : List Relation} {row : Relation} {store : SoaStore}
    (member : store ∈ rowStores front.length (factorTotal front) row) :
    soaContent (front ++ row :: back) store.1 = some store.2 := by
  have there : (front ++ row :: back)[front.length]? = some row := by
    rw [List.getElem?_append_right (Nat.le_refl _), Nat.sub_self]
    rfl
  rcases List.mem_append.mp member with word | factor
  · simp only [List.mem_cons, List.not_mem_nil, or_false] at word
    rcases word with rfl | rfl | rfl | rfl | rfl | rfl | rfl
    · exact congrArg (Option.map Relation.sqrtQ) there
    · exact congrArg (Option.map Relation.sign) there
    · exact congrArg (Option.map Relation.val2Exp) there
    · exact congrArg (Option.map Relation.largePrime) there
    · exact congrArg (Option.map Relation.charBits) there
    · simp [soaContent]
    · have next : (front ++ row :: back).take (front.length + 1) = front ++ [row] := by
        rw [List.append_cons]
        exact List.take_left' (by simp)
      simp [soaContent, next, factorTotal]
  · rcases List.mem_flatMap.mp factor with ⟨⟨item, k⟩, entry, listed⟩
    have held : row.factors[k]? = some item := List.mk_mem_zipIdx_iff_getElem?.mp entry
    have inside := (List.getElem?_eq_some_iff.mp held).1
    have found : (rowFactors (front ++ row :: back))[factorTotal front + k]? = some item := by
      rw [rowFactors_append, ← length_rowFactors,
        List.getElem?_append_right (Nat.le_add_right _ _), Nat.add_sub_cancel_left,
        rowFactors, List.flatMap_cons, List.getElem?_append_left inside]
      exact held
    simp only [List.mem_cons, List.not_mem_nil, or_false] at listed
    rcases listed with rfl | rfl
    · exact congrArg (Option.map Prod.fst) found
    · exact congrArg (Option.map Prod.snd) found

/-! ## The call of a warp -/

structure AppendLane where
  predicate : Bool
  row : Relation
  numFactors_le : row.factors.length ≤ 64

structure WarpCall where
  lanes : List AppendLane
  length_le : lanes.length ≤ 32

namespace WarpCall

variable (call : WarpCall)

def numFactors (lane : AppendLane) : Nat :=
  if lane.predicate then lane.row.factors.length else 0

def relRank (lane : Nat) : Nat := (call.lanes.take lane).countP (·.predicate)

def totalRels : Nat := call.lanes.countP (·.predicate)

def inclusive (lane : Nat) : Nat :=
  scan (fun other => (call.lanes.map numFactors).getD other 0) 5 lane

def totalFactors : Nat := call.inclusive (call.lanes.length - 1)

def factorOffset (lane : Nat) : Nat :=
  call.inclusive lane - (call.lanes.map numFactors).getD lane 0

def desired (old : Nat) : Nat :=
  packRf ((unpackR old + call.totalRels) % 2 ^ 32)
    ((unpackF old + call.totalFactors) % 2 ^ 32)

def rowsOf (lanes : List AppendLane) : List Relation :=
  (lanes.filter (·.predicate)).map (·.row)

def rows : List Relation := rowsOf call.lanes

theorem rowsOf_append (left right : List AppendLane) :
    rowsOf (left ++ right) = rowsOf left ++ rowsOf right := by
  simp [rowsOf]

theorem length_rowsOf (lanes : List AppendLane) :
    (rowsOf lanes).length = lanes.countP (·.predicate) := by
  simp [rowsOf, List.countP_eq_length_filter]

theorem factorTotal_rowsOf (lanes : List AppendLane) :
    factorTotal (rowsOf lanes) = (lanes.map numFactors).sum := by
  induction lanes with
  | nil => rfl
  | cons lane lanes induction =>
    rw [← List.singleton_append, rowsOf_append, factorTotal_append, induction,
      List.map_append, List.sum_append]
    cases predicate : lane.predicate with
    | false => simp [rowsOf, factorTotal, numFactors, predicate]
    | true => simp [rowsOf, factorTotal, numFactors, predicate]

theorem inclusive_eq {lane : Nat} (inside : lane < 32) :
    call.inclusive lane = factorTotal (rowsOf (call.lanes.take (lane + 1))) := by
  rw [inclusive, scan_eq_sum _ (show lane < 2 ^ 5 from inside), sum_range_getD,
    factorTotal_rowsOf, List.map_take]

theorem length_rows : call.rows.length = call.totalRels :=
  length_rowsOf call.lanes

theorem totalFactors_eq : call.totalFactors = factorTotal call.rows := by
  have short := call.length_le
  rw [totalFactors, call.inclusive_eq (by omega), List.take_of_length_le (by omega)]
  rfl

variable {call}

theorem factorOffset_eq {lane : Nat} {item : AppendLane} (there : call.lanes[lane]? = some item) :
    call.factorOffset lane = factorTotal (rowsOf (call.lanes.take lane)) := by
  have inside := (List.getElem?_eq_some_iff.mp there).1
  have short := call.length_le
  have weight : (call.lanes.map numFactors).getD lane 0 = numFactors item := by
    simp [List.getD, there]
  have last : factorTotal (rowsOf (call.lanes.take (lane + 1))) =
      factorTotal (rowsOf (call.lanes.take lane)) + numFactors item := by
    rw [factorTotal_rowsOf, factorTotal_rowsOf, List.take_add_one, there]
    simp
  rw [factorOffset, call.inclusive_eq (by omega), weight, last, Nat.add_sub_cancel]

theorem rows_eq_of_getElem? {lane : Nat} {item : AppendLane}
    (there : call.lanes[lane]? = some item) (predicate : item.predicate = true) :
    call.rows = rowsOf (call.lanes.take lane) ++
      item.row :: rowsOf (call.lanes.drop (lane + 1)) := by
  rcases List.getElem?_eq_some_iff.mp there with ⟨inside, same⟩
  have split : call.lanes =
      call.lanes.take lane ++ ([item] ++ call.lanes.drop (lane + 1)) := by
    rw [← same, List.singleton_append, ← List.drop_eq_getElem_cons inside, List.take_append_drop]
  calc rowsOf call.lanes
      = rowsOf (call.lanes.take lane ++ ([item] ++ call.lanes.drop (lane + 1))) :=
        congrArg rowsOf split
    _ = _ := by
        rw [rowsOf_append, rowsOf_append]
        simp [rowsOf, predicate]

theorem exists_lane {lanes : List AppendLane} {front back : List Relation}
    {row : Relation} (split : rowsOf lanes = front ++ row :: back) :
    ∃ lane item, lanes[lane]? = some item ∧ item.predicate = true ∧ item.row = row ∧
      rowsOf (lanes.take lane) = front := by
  induction lanes generalizing front with
  | nil => simp [rowsOf] at split
  | cons item lanes induction =>
    rw [← List.singleton_append, rowsOf_append] at split
    cases predicate : item.predicate with
    | false =>
      have none_ : rowsOf [item] = [] := by simp [rowsOf, predicate]
      rw [none_, List.nil_append] at split
      rcases induction split with ⟨lane, found, there, active, same, before⟩
      refine ⟨lane + 1, found, there, active, same, ?_⟩
      rw [List.take_succ_cons, ← List.singleton_append, rowsOf_append, none_, before,
        List.nil_append]
    | true =>
      have one : rowsOf [item] = [item.row] := by simp [rowsOf, predicate]
      rw [one, List.singleton_append] at split
      cases front with
      | nil =>
        rw [List.nil_append, List.cons.injEq] at split
        exact ⟨0, item, rfl, predicate, split.1, rfl⟩
      | cons first front =>
        rw [List.cons_append, List.cons.injEq] at split
        rcases induction split.2 with ⟨lane, found, there, active, same, before⟩
        refine ⟨lane + 1, found, there, active, same, ?_⟩
        rw [List.take_succ_cons, ← List.singleton_append, rowsOf_append, one, before,
          split.1, List.singleton_append]

end WarpCall

/-! ## The machine -/

structure AppendLaunch where
  maxRelations : Nat
  maxFactors : Nat
  targetCap : Nat
  warpCount : Nat
  calls : Fin warpCount → WarpCall
  dual : Nat
  memory : SoaMemory
  rows : List Relation
  maxRelations_lt : maxRelations < 2 ^ 32
  committed : SoaCommitted maxRelations maxFactors dual memory rows

namespace AppendLaunch

/-- `ready` is before the leader's first read, `trying` before its compare and
swap with the value it expects; `pending` are the stores left to each lane. -/
inductive WarpState where
  | ready
  | trying (old : Nat)
  | writing (pending : Nat → List SoaStore)
  | returned

variable (launch : AppendLaunch)

structure State where
  dual : Nat
  memory : SoaMemory
  warps : Fin launch.warpCount → WarpState

def start : launch.State where
  dual := launch.dual
  memory := launch.memory
  warps _ := .ready

def Refused (call : WarpCall) (old : Nat) : Prop :=
  (0 < launch.targetCap ∧ launch.targetCap ≤ unpackR old) ∨
    launch.maxRelations < (unpackR old + call.totalRels) % 2 ^ 32

instance (call : WarpCall) (old : Nat) : Decidable (launch.Refused call old) := by
  unfold Refused
  infer_instance

def laneStores (call : WarpCall) (old lane : Nat) : List SoaStore :=
  match call.lanes[lane]? with
  | none => []
  | some item =>
    let relIdx := unpackR old + call.relRank lane
    let factorStart := unpackF old + call.factorOffset lane
    if !item.predicate then []
    else if launch.maxRelations ≤ relIdx then []
    else if launch.maxFactors < factorStart + item.row.factors.length then []
    else rowStores relIdx factorStart item.row

def setWarp (state : launch.State) (warp : Fin launch.warpCount) (next : WarpState) :
    launch.State :=
  { state with warps := Function.update state.warps warp next }

def reserved (state : launch.State) (warp : Fin launch.warpCount) : launch.State where
  dual := (launch.calls warp).desired state.dual
  memory := state.memory
  warps := Function.update state.warps warp
    (.writing (launch.laneStores (launch.calls warp) state.dual))

def stored (state : launch.State) (warp : Fin launch.warpCount)
    (pending : Nat → List SoaStore) (lane : Nat) (store : SoaStore)
    (rest : List SoaStore) : launch.State where
  dual := state.dual
  memory := Function.update state.memory store.1 (some store.2)
  warps := Function.update state.warps warp (.writing (Function.update pending lane rest))

/-- The next action of a warp, or of one of its lanes once the warp has its slots;
a reservation emits the rows it is for. -/
def step (state : launch.State) (input : Fin launch.warpCount × Nat) :
    launch.State × Option (List Relation) :=
  match state.warps input.1 with
  | .ready =>
    if (launch.calls input.1).totalRels = 0 then
      (launch.setWarp state input.1 .returned, none)
    else (launch.setWarp state input.1 (.trying state.dual), none)
  | .trying old =>
    if launch.Refused (launch.calls input.1) old then
      (launch.setWarp state input.1 .returned, none)
    else if state.dual = old then
      (launch.reserved state input.1, some (launch.calls input.1).rows)
    else (launch.setWarp state input.1 (.trying state.dual), none)
  | .writing pending =>
    match pending input.2 with
    | [] => (state, none)
    | store :: rest => (launch.stored state input.1 pending input.2 store rest, none)
  | .returned => (state, none)

def Finished (state : launch.State) : Prop :=
  ∀ warp, match state.warps warp with
    | .ready => False
    | .trying _ => False
    | .writing pending => ∀ lane, pending lane = []
    | .returned => True

def WellFormed (state : launch.State) : Prop :=
  ∃ rows, SoaCommitted launch.maxRelations launch.maxFactors state.dual state.memory rows

def Reserves (state : launch.State) (warp : Fin launch.warpCount) : Prop :=
  match state.warps warp with
  | .trying old => ¬ launch.Refused (launch.calls warp) old ∧ state.dual = old
  | _ => False

def CountersFit (state : launch.State) (input : Fin launch.warpCount × Nat) : Prop :=
  launch.Reserves state input.1 → unpackR state.dual + (launch.calls input.1).totalRels < 2 ^ 32 ∧
      unpackF state.dual + (launch.calls input.1).totalFactors < 2 ^ 32

def FactorsFit (state : launch.State) (input : Fin launch.warpCount × Nat) : Prop :=
  launch.Reserves state input.1 →
    unpackF state.dual + (launch.calls input.1).totalFactors ≤ launch.maxFactors

def ReservationFits (state : launch.State) (input : Fin launch.warpCount × Nat) : Prop :=
  launch.CountersFit state input ∧ launch.FactorsFit state input

variable {launch}

theorem step_cases (state : launch.State) (input : Fin launch.warpCount × Nat) :
    (¬ launch.Reserves state input.1 ∧ launch.step state input = (state, none)) ∨
      (∃ next, ¬ launch.Reserves state input.1 ∧
        (∀ pending, state.warps input.1 ≠ .writing pending) ∧
        (∀ pending, next ≠ .writing pending) ∧
        launch.step state input = (launch.setWarp state input.1 next, none)) ∨
      (∃ pending store rest, ¬ launch.Reserves state input.1 ∧
        state.warps input.1 = .writing pending ∧ pending input.2 = store :: rest ∧
        launch.step state input = (launch.stored state input.1 pending input.2 store rest, none)) ∨
      (launch.Reserves state input.1 ∧ (∀ pending, state.warps input.1 ≠ .writing pending) ∧
        (unpackR state.dual + (launch.calls input.1).totalRels) % 2 ^ 32 ≤ launch.maxRelations ∧
        launch.step state input =
          (launch.reserved state input.1, some (launch.calls input.1).rows)) := by
  unfold step Reserves
  cases phase : state.warps input.1 with
  | ready =>
    refine Or.inr (Or.inl ?_)
    dsimp only
    split
    next => exact ⟨.returned, id, nofun, nofun, rfl⟩
    next => exact ⟨.trying state.dual, id, nofun, nofun, rfl⟩
  | trying old =>
    dsimp only
    split
    next refused =>
        exact Or.inr (Or.inl ⟨.returned, fun reserves => reserves.1 refused, nofun, nofun, rfl⟩)
    next accepted =>
        split
        next same =>
            refine Or.inr (Or.inr (Or.inr ⟨⟨accepted, same⟩, nofun, ?_, rfl⟩))
            rw [same]
            exact Nat.not_lt.mp fun beyond => accepted (Or.inr beyond)
        next changed =>
            exact Or.inr (Or.inl ⟨.trying state.dual, fun reserves => changed reserves.2,
              nofun, nofun, rfl⟩)
  | writing pending =>
    dsimp only
    cases waiting : pending input.2 with
    | nil => exact Or.inl ⟨id, rfl⟩
    | cons store rest =>
      exact Or.inr (Or.inr (Or.inl ⟨pending, store, rest, id, rfl, waiting, rfl⟩))
  | returned => exact Or.inl ⟨id, rfl⟩

/-! ## The invariant of a launch -/

structure Invariant (state : launch.State) (rows : List Relation) : Prop where
  relations : unpackR state.dual = rows.length
  factors : unpackF state.dual = factorTotal rows
  relationCapacity : rows.length ≤ launch.maxRelations
  factorCapacity : factorTotal rows ≤ launch.maxFactors
  writing : ∀ warp pending, state.warps warp = .writing pending → ∀ lane,
    ∀ store ∈ pending lane, soaContent rows store.1 = some store.2
  complete : ∀ front row back, rows = front ++ row :: back →
    ∀ store ∈ rowStores front.length (factorTotal front) row, state.memory store.1 = some store.2 ∨
        ∃ warp pending lane, state.warps warp = .writing pending ∧ store ∈ pending lane

theorem Invariant.start : Invariant launch.start launch.rows where
  relations := launch.committed.relations
  factors := launch.committed.factors
  relationCapacity := launch.committed.relationCapacity
  factorCapacity := launch.committed.factorCapacity
  writing _ _ phase := nomatch phase
  complete front row back split _ member :=
    Or.inl ((launch.committed.holds front row back split).rowStores member)

section Moves

variable {state : launch.State} {rows : List Relation} {warp : Fin launch.warpCount}

theorem Invariant.setWarp (invariant : Invariant state rows) {next : WarpState}
    (idle : ∀ pending, state.warps warp ≠ .writing pending)
    (quiet : ∀ pending, next ≠ .writing pending) :
    Invariant (launch.setWarp state warp next) rows where
  relations := invariant.relations
  factors := invariant.factors
  relationCapacity := invariant.relationCapacity
  factorCapacity := invariant.factorCapacity
  writing other pending phase := by
    by_cases same : other = warp
    · rw [same] at phase
      have mine : (launch.setWarp state warp next).warps warp = next :=
        Function.update_self _ _ _
      exact absurd (mine.symm.trans phase) (quiet pending)
    · apply invariant.writing other pending
      rw [← phase]
      exact (Function.update_of_ne same _ _).symm
  complete front row back split store member := by
    rcases invariant.complete front row back split store member with
      done | ⟨other, pending, lane, phase, waiting⟩
    · exact Or.inl done
    · have different : other ≠ warp := by
        intro same
        rw [same] at phase
        exact idle pending phase
      refine Or.inr ⟨other, pending, lane, ?_, waiting⟩
      rw [← phase]
      exact Function.update_of_ne different _ _

theorem Invariant.stored (invariant : Invariant state rows)
    {pending : Nat → List SoaStore} {lane : Nat} {store : SoaStore} {rest : List SoaStore}
    (phase : state.warps warp = .writing pending) (waiting : pending lane = store :: rest) :
    Invariant (launch.stored state warp pending lane store rest) rows where
  relations := invariant.relations
  factors := invariant.factors
  relationCapacity := invariant.relationCapacity
  factorCapacity := invariant.factorCapacity
  writing other pending' phase' := by
    by_cases same : other = warp
    · have mine : (launch.stored state warp pending lane store rest).warps warp =
          .writing (Function.update pending lane rest) := Function.update_self _ _ _
      rw [same, mine, WarpState.writing.injEq] at phase'
      rw [← phase']
      intro place other' member
      apply invariant.writing warp pending phase place
      by_cases here : place = lane
      · rw [here, Function.update_self] at member
        rw [here, waiting]
        exact List.mem_cons_of_mem _ member
      · rwa [Function.update_of_ne here] at member
    · apply invariant.writing other pending'
      rw [← phase']
      exact (Function.update_of_ne same _ _).symm
  complete front row back split other member := by
    have expected : soaContent rows store.1 = some store.2 := by
      apply invariant.writing warp pending phase lane
      rw [waiting]
      exact List.mem_cons_self
    have content : soaContent rows other.1 = some other.2 := by
      rw [split]
      exact soaContent_of_mem_rowStores member
    rcases other with ⟨cell, value⟩
    rcases store with ⟨target, written⟩
    by_cases same : cell = target
    · cases same
      left
      rw [expected, Option.some.injEq] at content
      rw [← content]
      exact Function.update_self _ _ _
    · have kept : (launch.stored state warp pending lane ⟨target, written⟩ rest).memory cell =
          state.memory cell := Function.update_of_ne same _ _
      rcases invariant.complete front row back split ⟨cell, value⟩ member with
        done | ⟨owner, pending', place, phase', there⟩
      · exact Or.inl (kept.trans done)
      · right
        by_cases mine : owner = warp
        · rw [mine, phase, WarpState.writing.injEq] at phase'
          refine ⟨warp, Function.update pending lane rest, place, Function.update_self _ _ _, ?_⟩
          by_cases here : place = lane
          · rw [here, Function.update_self]
            rw [← phase', here, waiting] at there
            rcases List.mem_cons.mp there with equal | later
            · exact absurd (congrArg Sigma.fst equal) same
            · exact later
          · rw [Function.update_of_ne here, phase']
            exact there
        · refine ⟨owner, pending', place, ?_, there⟩
          rw [← phase']
          exact Function.update_of_ne mine _ _

private theorem laneStores_eq (invariant : Invariant state rows) {call : WarpCall}
    (relationCapacity : rows.length + call.totalRels ≤ launch.maxRelations)
    (factorCapacity : factorTotal rows + call.totalFactors ≤ launch.maxFactors)
    {lane : Nat} {item : AppendLane} (there : call.lanes[lane]? = some item)
    (predicate : item.predicate = true) :
    launch.laneStores call state.dual lane =
      rowStores (rows ++ WarpCall.rowsOf (call.lanes.take lane)).length
        (factorTotal (rows ++ WarpCall.rowsOf (call.lanes.take lane))) item.row := by
  have split := WarpCall.rows_eq_of_getElem? there predicate
  have length := congrArg List.length split
  have total := congrArg factorTotal split
  rw [WarpCall.length_rows, List.length_append, List.length_cons, WarpCall.length_rowsOf] at length
  rw [← WarpCall.totalFactors_eq, factorTotal_append] at total
  have row : factorTotal (item.row :: WarpCall.rowsOf (call.lanes.drop (lane + 1))) =
      item.row.factors.length +
        factorTotal (WarpCall.rowsOf (call.lanes.drop (lane + 1))) := by
    simp [factorTotal]
  rw [row] at total
  rw [laneStores, there]
  dsimp only
  rw [predicate, invariant.relations, invariant.factors, WarpCall.factorOffset_eq there,
    List.length_append, factorTotal_append, WarpCall.length_rowsOf, WarpCall.relRank,
    if_neg (by decide), if_neg (by omega), if_neg (by omega)]

theorem Invariant.reserved (invariant : Invariant state rows)
    (idle : ∀ pending, state.warps warp ≠ .writing pending)
    (capacity : (unpackR state.dual + (launch.calls warp).totalRels) % 2 ^ 32 ≤ launch.maxRelations)
    (counters : unpackR state.dual + (launch.calls warp).totalRels < 2 ^ 32 ∧
      unpackF state.dual + (launch.calls warp).totalFactors < 2 ^ 32)
    (room : unpackF state.dual + (launch.calls warp).totalFactors ≤ launch.maxFactors) :
    Invariant (launch.reserved state warp) (rows ++ (launch.calls warp).rows) := by
  have dual : (launch.reserved state warp).dual = packRf
      (unpackR state.dual + (launch.calls warp).totalRels)
      (unpackF state.dual + (launch.calls warp).totalFactors) := by
    simp only [AppendLaunch.reserved, WarpCall.desired, Nat.mod_eq_of_lt counters.1,
      Nat.mod_eq_of_lt counters.2]
  have mine : (launch.reserved state warp).warps warp =
      .writing (launch.laneStores (launch.calls warp) state.dual) :=
    Function.update_self _ _ _
  have others : ∀ other, other ≠ warp →
      (launch.reserved state warp).warps other = state.warps other := by
    intro other different
    exact Function.update_of_ne different _ _
  rw [Nat.mod_eq_of_lt counters.1, invariant.relations] at capacity
  have factors := room
  rw [invariant.factors] at factors
  constructor
  · rw [dual, unpackR_packRf _ counters.2, invariant.relations, List.length_append,
      WarpCall.length_rows]
  · rw [dual, unpackF_packRf _ counters.2, invariant.factors, factorTotal_append,
      WarpCall.totalFactors_eq]
  · rw [List.length_append, WarpCall.length_rows]
    exact capacity
  · rw [factorTotal_append, ← WarpCall.totalFactors_eq]
    exact factors
  · intro other pending phase lane store member
    by_cases same : other = warp
    · rw [same, mine, WarpState.writing.injEq] at phase
      rw [← phase] at member
      cases there : (launch.calls warp).lanes[lane]? with
      | none => simp [laneStores, there] at member
      | some item =>
        cases predicate : item.predicate with
        | false => simp [laneStores, there, predicate] at member
        | true =>
          rw [laneStores_eq invariant capacity factors there predicate] at member
          rw [WarpCall.rows_eq_of_getElem? there predicate, ← List.append_assoc]
          exact soaContent_of_mem_rowStores member
    · rw [others other same] at phase
      exact soaContent_of_append _ (invariant.writing other pending phase lane store member)
  · intro front row back split store member
    rcases List.append_eq_append_iff.mp split with
      ⟨front', frontEq, rest⟩ | ⟨back', rowsEq, rest⟩
    · rcases WarpCall.exists_lane rest with ⟨lane, item, there, predicate, same, before⟩
      refine Or.inr ⟨warp, _, lane, mine, ?_⟩
      rw [laneStores_eq invariant capacity factors there predicate, before, same, ← frontEq]
      exact member
    · cases back' with
      | nil =>
        rw [List.nil_append] at rest
        rw [List.append_nil] at rowsEq
        rcases @WarpCall.exists_lane _ [] _ _ rest.symm with
          ⟨lane, item, there, predicate, same, before⟩
        refine Or.inr ⟨warp, _, lane, mine, ?_⟩
        rw [laneStores_eq invariant capacity factors there predicate, before, same,
          List.append_nil, rowsEq]
        exact member
      | cons first back' =>
        rw [List.cons_append, List.cons.injEq] at rest
        rw [← rest.1] at rowsEq
        rcases invariant.complete front row back' rowsEq store member with
          done | ⟨other, pending, lane, phase, waiting⟩
        · exact Or.inl done
        · have different : other ≠ warp := by
            intro same
            rw [same] at phase
            exact idle pending phase
          refine Or.inr ⟨other, pending, lane, ?_, waiting⟩
          rw [others other different]
          exact phase

theorem Invariant.step {log : List (List Relation)} {input : Fin launch.warpCount × Nat}
    (fits : launch.ReservationFits state input)
    (invariant : Invariant state (launch.rows ++ log.flatten)) :
    Invariant (launch.step state input).1
      (launch.rows ++ (log ++ (launch.step state input).2.toList).flatten) := by
  rcases step_cases state input with
    ⟨_, idle⟩ | ⟨next, _, quiet, nextQuiet, moved⟩ |
      ⟨pending, store, rest, _, phase, waiting, write⟩ | ⟨reserves, quiet, capacity, reserve⟩
  · rw [idle, Option.toList_none, List.append_nil]
    exact invariant
  · rw [moved, Option.toList_none, List.append_nil]
    exact invariant.setWarp quiet nextQuiet
  · rw [write, Option.toList_none, List.append_nil]
    exact invariant.stored phase waiting
  · rw [reserve, Option.toList_some, List.flatten_append, List.flatten_singleton,
      ← List.append_assoc]
    exact invariant.reserved quiet capacity (fits.1 reserves) (fits.2 reserves)

end Moves

/-! ## The end of a launch -/

theorem Invariant.committed {state : launch.State} {rows : List Relation}
    (invariant : Invariant state rows) (finished : launch.Finished state) :
    SoaCommitted launch.maxRelations launch.maxFactors state.dual state.memory rows where
  relations := invariant.relations
  factors := invariant.factors
  relationCapacity := invariant.relationCapacity
  factorCapacity := invariant.factorCapacity
  holds front row back split := by
    apply soaHolds_of_rowStores
    intro store member
    rcases invariant.complete front row back split store member with
      done | ⟨warp, pending, lane, phase, waiting⟩
    · exact done
    · have empty := finished warp
      rw [phase] at empty
      have none_ : pending lane = [] := empty lane
      rw [none_] at waiting
      cases waiting

private theorem unpackF_step {state : launch.State} {input : Fin launch.warpCount × Nat}
    (fits : launch.CountersFit state input) :
    unpackF state.dual ≤ unpackF (launch.step state input).1.dual ∧ (launch.Reserves state input.1 →
        unpackF state.dual + (launch.calls input.1).totalFactors ≤
          unpackF (launch.step state input).1.dual) := by
  rcases step_cases state input with
    ⟨waits, idle⟩ | ⟨next, waits, _, _, moved⟩ | ⟨pending, store, rest, waits, _, _, write⟩ |
      ⟨reserves, _, _, reserve⟩
  · rw [idle]
    exact ⟨Nat.le_refl _, fun reserves => absurd reserves waits⟩
  · rw [moved]
    exact ⟨Nat.le_refl _, fun reserves => absurd reserves waits⟩
  · rw [write]
    exact ⟨Nat.le_refl _, fun reserves => absurd reserves waits⟩
  · have counters := fits reserves
    rw [reserve]
    have dual : unpackF (launch.reserved state input.1).dual =
        unpackF state.dual + (launch.calls input.1).totalFactors := by
      simp only [reserved, WarpCall.desired, Nat.mod_eq_of_lt counters.2,
        unpackF_packRf _ counters.2]
    rw [dual]
    exact ⟨Nat.le_add_right _ _, fun _ => Nat.le_refl _⟩

private theorem reservationFits_of_unpackF {schedule : List (Fin launch.warpCount × Nat)}
    {state : launch.State} (fits : Guarded launch.step launch.CountersFit state schedule) :
    unpackF state.dual ≤ unpackF (emitRun launch.step state schedule).1.dual ∧
      (unpackF (emitRun launch.step state schedule).1.dual ≤ launch.maxFactors →
        Guarded launch.step launch.ReservationFits state schedule) := by
  induction schedule generalizing state with
  | nil => exact ⟨Nat.le_refl _, fun _ => trivial⟩
  | cons input schedule induction =>
    rcases induction fits.2 with ⟨grows, rest⟩
    rcases unpackF_step fits.1 with ⟨kept, reserved⟩
    refine ⟨kept.trans grows, fun bound => ⟨⟨fits.1, fun reserves => ?_⟩, rest bound⟩⟩
    exact (reserved reserves).trans (grows.trans bound)

/-- When all warps are through, the buffer is a CSR batch of the old rows and the
appended ones if every reservation fits; and where the counters do not wrap, only
then. -/
theorem appendToSoa_wellFormed (launch : AppendLaunch)
    (schedule : List (Fin launch.warpCount × Nat))
    (finished : launch.Finished (emitRun launch.step launch.start schedule).1) :
    (Guarded launch.step launch.ReservationFits launch.start schedule →
      SoaCommitted launch.maxRelations launch.maxFactors
        (emitRun launch.step launch.start schedule).1.dual
        (emitRun launch.step launch.start schedule).1.memory
        (launch.rows ++ (emitRun launch.step launch.start schedule).2.flatten)) ∧
      (Guarded launch.step launch.CountersFit launch.start schedule →
        launch.WellFormed (emitRun launch.step launch.start schedule).1 →
        Guarded launch.step launch.ReservationFits launch.start schedule) := by
  constructor
  · intro guarded
    have initial : Invariant launch.start (launch.rows ++ ([] : List (List Relation)).flatten) := by
      rw [List.flatten_nil, List.append_nil]
      exact Invariant.start
    have invariant := @emitRun_invariant _ _ _ launch.step launch.ReservationFits
      (fun state log => Invariant state (launch.rows ++ log.flatten))
      (fun _ _ _ fits invariant => invariant.step fits) _ [] initial _ guarded
    rw [List.nil_append] at invariant
    exact invariant.committed finished
  · rintro counters ⟨rows, committed⟩
    apply (reservationFits_of_unpackF counters).2
    rw [committed.factors]
    exact committed.factorCapacity

def rowOf (count : Fin 65) : AppendLane where
  predicate := true
  row := ⟨UInt512.ofUInt32 5, 1, 0, 1, 0, List.replicate count.val (3, 1)⟩
  numFactors_le := by
    rw [List.length_replicate]
    exact Nat.le_of_lt_succ count.isLt

def singleWarp (count : Fin 65) : AppendLaunch where
  maxRelations := 10
  maxFactors := 4
  targetCap := 0
  warpCount := 1
  calls _ := ⟨[rowOf count], Nat.le_add_left 1 31⟩
  dual := 0
  memory _ := none
  rows := []
  maxRelations_lt := by decide
  committed := by
    constructor
    · rfl
    · rfl
    · exact Nat.zero_le 10
    · exact Nat.zero_le 4
    · intro front row back split
      simp at split

def onlyLane (count : Fin 65) : Fin (singleWarp count).warpCount × Nat :=
  (⟨0, Nat.one_pos⟩, 0)

private theorem finished_singleWarp : (singleWarp 1).Finished (emitRun (singleWarp 1).step
      (singleWarp 1).start (List.replicate 11 (onlyLane 1))).1 := by
  intro warp
  have only : warp = ⟨0, Nat.one_pos⟩ := Subsingleton.elim (α := Fin 1) _ _
  rw [only]
  intro lane
  cases lane with
  | zero => rfl
  | succ lane => rfl

theorem wellFormed_singleWarp : SoaCommitted 10 4 (emitRun (singleWarp 1).step (singleWarp 1).start
        (List.replicate 11 (onlyLane 1))).1.dual
      (emitRun (singleWarp 1).step (singleWarp 1).start (List.replicate 11 (onlyLane 1))).1.memory
      [(rowOf 1).row] := by
  apply (appendToSoa_wellFormed (singleWarp 1)
    (List.replicate 11 (onlyLane 1)) finished_singleWarp).1
  refine ⟨?_, ?_, ?_, ?_, ?_, ?_, ?_, ?_, ?_, ?_, ?_, trivial⟩
  all_goals
    constructor
    · intro _
      decide
    · intro _
      decide

/-- A relation with more factors than the buffer has left is counted, and its
slot is not written. -/
theorem not_wellFormed_singleWarp : (singleWarp 5).Finished (emitRun (singleWarp 5).step
        (singleWarp 5).start (List.replicate 2 (onlyLane 5))).1 ∧
      unpackR (emitRun (singleWarp 5).step (singleWarp 5).start
        (List.replicate 2 (onlyLane 5))).1.dual = 1 ∧
      (emitRun (singleWarp 5).step (singleWarp 5).start
        (List.replicate 2 (onlyLane 5))).1.memory (.sqrtQ 0) = none ∧
      ¬ (singleWarp 5).WellFormed (emitRun (singleWarp 5).step (singleWarp 5).start
          (List.replicate 2 (onlyLane 5))).1 := by
  refine ⟨?_, by decide, rfl, ?_⟩
  · intro warp
    have only : warp = ⟨0, Nat.one_pos⟩ := Subsingleton.elim (α := Fin 1) _ _
    rw [only]
    intro lane
    cases lane with
    | zero => rfl
    | succ lane => rfl
  · rintro ⟨rows, committed⟩
    have bound := committed.factorCapacity
    rw [← committed.factors] at bound
    revert bound
    decide

end AppendLaunch

end CudaMpqs
