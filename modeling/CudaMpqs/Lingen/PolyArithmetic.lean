import Mathlib.Algebra.BigOperators.Fin
import Mathlib.Algebra.Field.ZMod
import Mathlib.Data.Matrix.Mul
import CudaMpqs.Foundation.CoefficientProducts

/-! # Polynomials of matrices over GF(2)

The operations of `poly_arithmetic.cu` and the leaf kernels of `karatsuba.cuh` on views of
device buffers, and the naive multiplication on the host. A buffer cell is one matrix. -/

namespace CudaMpqs.PolyArithmetic

open CoefficientProducts Polynomial

abbrev BitMatrix (N : Nat) := Matrix (Fin N) (Fin N) (ZMod 2)

theorem BitMatrix.add_self (matrix : BitMatrix N) : matrix + matrix = 0 := by
  ext row column
  exact CharTwo.add_self_eq_zero _

inductive Buffer where
  | operandA
  | operandB
  | product
  | workspace
  deriving DecidableEq

structure PolyMatrixView where
  data : Buffer
  offset : Nat
  length : Nat

def PolyMatrixView.split (view : PolyMatrixView) (start length : Nat) : PolyMatrixView :=
  ⟨view.data, view.offset + start, length⟩

theorem PolyMatrixView.split_length (view : PolyMatrixView) (start length : Nat) :
    (view.split start length).length = length := rfl

def matSizeBytes (N : Nat) : Nat := N * N / 8

structure Device (N : Nat) where
  memory : Buffer → Nat → BitMatrix N
  reach : Buffer → Nat

namespace Device

def coefficient (device : Device N) (view : PolyMatrixView) (index : Nat) : BitMatrix N :=
  device.memory view.data (view.offset + index)

def touch (view : PolyMatrixView) (device : Device N) : Device N :=
  if view.length = 0 then device
  else
    { device with
      reach := Function.update device.reach view.data
        (max (device.reach view.data) (view.offset + view.length)) }

def store (view : PolyMatrixView) (values : Nat → BitMatrix N) (device : Device N) : Device N :=
  let device := device.touch view
  { device with
    memory := fun buffer cell =>
      if buffer = view.data ∧ view.offset ≤ cell ∧ cell < view.offset + view.length then
        values (cell - view.offset)
      else device.memory buffer cell }

end Device

def polyAddGpu (dst src : PolyMatrixView) (device : Device N) : Device N :=
  let length := min dst.length src.length
  (device.touch (src.split 0 length)).store (dst.split 0 length) fun index =>
    device.coefficient dst index + device.coefficient src index

def polyZeroGpu (view : PolyMatrixView) (device : Device N) : Device N :=
  device.store view fun _ => 0

def polyCopyGpu (dst src : PolyMatrixView) (device : Device N) : Device N :=
  let length := min dst.length src.length
  (device.touch (src.split 0 length)).store (dst.split 0 length) (device.coefficient src)

def xorRows (row : Fin N → ZMod 2) (matrix : BitMatrix N) (acc : Fin N → ZMod 2) : Fin N → ZMod 2 :=
  (List.finRange N).foldl (fun acc bit => if row bit = 1 then acc + matrix.row bit else acc) acc

/-- The output coefficient `k` of `k_naive_conv_fused` and `k_naive_conv_fused_smemB`. The
first computes its byte offsets as `int`: its operands and its product are below 2 GiB. -/
def naiveConvFused (lenA lenB : Nat) (A B : Nat → BitMatrix N) (k : Nat) : BitMatrix N :=
  let iMin := k + 1 - lenB
  let iMax := min k (lenA - 1)
  Matrix.of fun row =>
    (List.range' iMin (iMax + 1 - iMin)).foldl
      (fun acc i => xorRows (A i row) (B (k - i)) acc) 0

/-- The output coefficient `k` of `k_naive_conv_fused_smemB_mpb`, whose loop runs over all
of `A`. -/
def naiveConvFusedMpb (lenA lenB : Nat) (A B : Nat → BitMatrix N) (k : Nat) : BitMatrix N :=
  Matrix.of fun row =>
    (List.range lenA).foldl
      (fun acc i => if i ≤ k ∧ k - i < lenB then xorRows (A i row) (B (k - i)) acc else acc) 0

inductive PolyMulLeafKind where
  | naiveFusedGlobal
  | naiveFusedSmemB
  | naiveFusedSmemBMpb
  deriving DecidableEq

def convolution (leafKind : PolyMulLeafKind) (lenA lenB : Nat) (A B : Nat → BitMatrix N) :
    Nat → BitMatrix N :=
  match leafKind with
  | .naiveFusedGlobal => naiveConvFused lenA lenB A B
  | .naiveFusedSmemB => naiveConvFused lenA lenB A B
  | .naiveFusedSmemBMpb =>
    if N = 64 ∨ N = 128 ∨ N = 256 ∨ N = 512 then naiveConvFusedMpb lenA lenB A B
    else naiveConvFused lenA lenB A B

def karatsubaLaunchLeaf (leafKind : PolyMulLeafKind) (C A B : PolyMatrixView)
    (device : Device N) : Device N :=
  ((device.touch A).touch B).store (C.split 0 (A.length + B.length - 1))
    (convolution leafKind A.length B.length (device.coefficient A) (device.coefficient B))

def launchLeafConv (C A B : PolyMatrixView) (device : Device N) : Device N :=
  ((device.touch A).touch B).store (C.split 0 (A.length + B.length - 1))
    (naiveConvFused A.length B.length (device.coefficient A) (device.coefficient B))

def naiveAccumulate (lenC : Nat) (A B : Nat → BitMatrix N) (i : Nat) (C : Nat → BitMatrix N)
    (j : Nat) : Nat → BitMatrix N :=
  if lenC ≤ i + j then C
  else
    Function.update C (i + j) (Matrix.of fun row => xorRows (A i row) (B j) (C (i + j) row))

def polyMulNaiveCpu (lenC lenA lenB : Nat) (A B : Nat → BitMatrix N) : Nat → BitMatrix N :=
  (List.range lenA).foldl
    (fun C i => (List.range lenB).foldl (naiveAccumulate lenC A B i) C) fun _ => 0

private theorem bit_cases : ∀ bit : ZMod 2, bit = 0 ∨ bit = 1 := by decide

theorem xorRows_eq (row : Fin N → ZMod 2) (matrix : BitMatrix N) (acc : Fin N → ZMod 2) :
    xorRows row matrix acc = acc + Matrix.vecMul row matrix := by
  have bitwise : ∀ (bits : List (Fin N)) (acc : Fin N → ZMod 2),
      bits.foldl (fun acc bit => if row bit = 1 then acc + matrix.row bit else acc) acc =
        acc + (bits.map fun bit => row bit • matrix.row bit).sum := by
    intro bits
    induction bits with
    | nil => simp
    | cons bit bits induction =>
      intro acc
      have term : (if row bit = 1 then acc + matrix.row bit else acc) =
          acc + row bit • matrix.row bit := by
        rcases bit_cases (row bit) with zero | one
        · rw [zero, if_neg zero_ne_one]
          exact (by simp : acc = acc + (0 : ZMod 2) • matrix.row bit)
        · rw [one, if_pos rfl]
          exact (by simp : acc + matrix.row bit = acc + (1 : ZMod 2) • matrix.row bit)
      rw [List.foldl_cons, term, induction, List.map_cons, List.sum_cons, add_assoc]
  rw [xorRows, bitwise, Matrix.vecMul_eq_sum, Fin.sum_univ_def]
  rfl

theorem foldl_xorRows (indices : List Nat) (taken : Nat → Bool) (A B : Nat → BitMatrix N)
    (row : Fin N) (acc : Fin N → ZMod 2) :
    indices.foldl (fun acc i => if taken i then xorRows (A i row) (B i) acc else acc) acc =
      acc + (indices.map fun i => if taken i then A i * B i else 0).sum.row row := by
  induction indices generalizing acc with
  | nil => exact (add_zero acc).symm
  | cons i indices induction =>
    rw [List.foldl_cons, induction, List.map_cons, List.sum_cons]
    by_cases chosen : taken i
    · rw [if_pos chosen, if_pos chosen, xorRows_eq, add_assoc]
      rfl
    · rw [if_neg chosen, if_neg chosen, zero_add]

section Convolution

variable {lenA lenB : Nat} (A B : Nat → BitMatrix N) (k : Nat)

theorem naiveConvFused_eq (positive : 0 < lenA) : naiveConvFused lenA lenB A B k =
      (ofCoefficients lenA A * ofCoefficients lenB B).coeff k := by
  have listed : (ofCoefficients lenA A * ofCoefficients lenB B).coeff k =
      ((List.range' (k + 1 - lenB) (min k (lenA - 1) + 1 - (k + 1 - lenB))).map
        fun i => A i * B (k - i)).sum := by
    rw [coeff_mul_window positive, Nat.Ico_eq_range']
    rfl
  rw [listed]
  ext row column
  have loop := foldl_xorRows
    (List.range' (k + 1 - lenB) (min k (lenA - 1) + 1 - (k + 1 - lenB))) (fun _ => true)
    A (fun i => B (k - i)) row 0
  simp only [if_true, zero_add] at loop
  exact congrFun loop column

private theorem naiveConvFusedMpb_eq : naiveConvFusedMpb lenA lenB A B k =
      (ofCoefficients lenA A * ofCoefficients lenB B).coeff k := by
  have listed : (ofCoefficients lenA A * ofCoefficients lenB B).coeff k =
      ((List.range lenA).map fun i =>
        if i ≤ k ∧ k - i < lenB then A i * B (k - i) else 0).sum := by
    rw [coeff_mul_masked]
    rfl
  rw [listed]
  ext row column
  have loop := foldl_xorRows (List.range lenA) (fun i => decide (i ≤ k ∧ k - i < lenB))
    A (fun i => B (k - i)) row 0
  simp only [decide_eq_true_eq, zero_add] at loop
  exact congrFun loop column

private theorem convolution_eq (leafKind : PolyMulLeafKind) (positive : 0 < lenA) :
    convolution leafKind lenA lenB A B = naiveConvFused lenA lenB A B := by
  cases leafKind with
  | naiveFusedGlobal => rfl
  | naiveFusedSmemB => rfl
  | naiveFusedSmemBMpb =>
    funext k
    rw [naiveConvFused_eq A B k positive, ← naiveConvFusedMpb_eq]
    simp only [convolution]
    split
    · rfl
    · rw [naiveConvFused_eq A B k positive, naiveConvFusedMpb_eq]

theorem karatsubaLaunchLeaf_eq (leafKind : PolyMulLeafKind) (C : PolyMatrixView)
    {left : PolyMatrixView} (right : PolyMatrixView) (positive : 0 < left.length)
    (device : Device N) :
    karatsubaLaunchLeaf leafKind C left right device = launchLeafConv C left right device := by
  rw [karatsubaLaunchLeaf, convolution_eq _ _ leafKind positive, launchLeafConv]

end Convolution

section NaiveCpu

variable {lenC lenA lenB : Nat} (A B : Nat → BitMatrix N)

private theorem naiveAccumulate_apply (C : Nat → BitMatrix N) {i j k : Nat} (inside : k < lenC) :
    naiveAccumulate lenC A B i C j k = C k + if i + j = k then A i * B j else 0 := by
  unfold naiveAccumulate
  by_cases same : i + j = k
  · subst same
    rw [if_neg (by omega), Function.update_self, if_pos rfl]
    ext row column
    exact congrFun (xorRows_eq (A i row) (B j) (C (i + j) row)) column
  · rw [if_neg same, add_zero]
    split
    · rfl
    · rw [Function.update_of_ne (Ne.symm same)]

private theorem naiveAccumulate_run (C : Nat → BitMatrix N) (i : Nat) {k : Nat}
    (inside : k < lenC) :
    (List.range lenB).foldl (naiveAccumulate lenC A B i) C k =
      C k + ∑ j ∈ Finset.range lenB, if i + j = k then A i * B j else 0 := by
  induction lenB with
  | zero => exact (add_zero _).symm
  | succ lenB induction =>
    rw [List.range_succ, List.foldl_append, List.foldl_cons, List.foldl_nil,
      naiveAccumulate_apply A B _ inside, induction, Finset.sum_range_succ, add_assoc]

theorem polyMulNaiveCpu_eq {k : Nat} (inside : k < lenC) : polyMulNaiveCpu lenC lenA lenB A B k =
      (ofCoefficients lenA A * ofCoefficients lenB B).coeff k := by
  rw [coeff_mul_double]
  induction lenA with
  | zero => rfl
  | succ lenA induction =>
    rw [polyMulNaiveCpu, List.range_succ, List.foldl_append, List.foldl_cons, List.foldl_nil,
      naiveAccumulate_run A B _ _ inside, Finset.sum_range_succ]
    exact congrArg (· + _) induction

end NaiveCpu

namespace PolyMatrixView

def Apart (left right : PolyMatrixView) : Prop :=
  left.data = right.data →
    left.offset + left.length ≤ right.offset ∨ right.offset + right.length ≤ left.offset

def Below (bound : Nat) (view : PolyMatrixView) : Prop :=
  view.data = .workspace → view.offset + view.length ≤ bound

variable {left right view target : PolyMatrixView} {start length bound base : Nat}

theorem Apart.symm (apart : left.Apart right) : right.Apart left :=
  fun same => (apart same.symm).symm

theorem Apart.split (apart : left.Apart right) (inside : start + length ≤ left.length) :
    (left.split start length).Apart right := by
  intro same
  have := apart same
  simp only [PolyMatrixView.split]
  omega

theorem split_apart {otherStart otherLength : Nat} (ordered : start + length ≤ otherStart) :
    (view.split start length).Apart (view.split otherStart otherLength) := by
  intro _
  simp only [PolyMatrixView.split]
  omega

theorem Below.split (below : view.Below bound) (inside : start + length ≤ view.length) :
    (view.split start length).Below bound := by
  intro same
  have := below same
  simp only [PolyMatrixView.split]
  omega

theorem Below.mono (below : view.Below bound) (ordered : bound ≤ base) : view.Below base :=
  fun same => (below same).trans ordered

theorem Below.apart (below : view.Below bound) (above : bound ≤ target.offset)
    (workspace : target.data = .workspace) : view.Apart target :=
  fun same => Or.inl ((below (same.trans workspace)).trans above)

end PolyMatrixView

namespace Device

variable (device : Device N) (view target dst src : PolyMatrixView)

noncomputable def poly : (BitMatrix N)[X] := ofCoefficients view.length (device.coefficient view)

@[simp] theorem touch_memory : (device.touch view).memory = device.memory := by
  unfold touch
  split <;> rfl

@[simp] theorem touch_coefficient :
    (device.touch view).coefficient target = device.coefficient target := by
  funext index
  simp only [coefficient, touch_memory]

@[simp] theorem touch_poly : (device.touch view).poly target = device.poly target := by
  simp only [poly, touch_coefficient]

theorem coefficient_split (start length : Nat) : device.coefficient (view.split start length) =
      fun index => device.coefficient view (start + index) := by
  funext index
  simp only [coefficient, PolyMatrixView.split, Nat.add_assoc]

theorem poly_split {start : Nat} (inside : start ≤ view.length) :
    device.poly view = device.poly (view.split 0 start) +
      X ^ start * device.poly (view.split start (view.length - start)) := by
  have low : device.coefficient (view.split 0 start) = device.coefficient view := by
    simp only [coefficient_split, Nat.zero_add]
  rw [poly, ofCoefficients_split inside, poly, poly, low, coefficient_split]
  rfl

section Store

variable {device view target} (values : Nat → BitMatrix N)

theorem store_poly_of_apart (apart : view.Apart target) :
    (device.store target values).poly view = device.poly view := by
  refine ofCoefficients_congr fun index inside => ?_
  simp only [coefficient, store, touch_memory]
  refine if_neg fun both => ?_
  have := apart both.1
  omega

theorem store_poly_self : (device.store target values).poly target =
    ofCoefficients target.length values := by
  refine ofCoefficients_congr fun index inside => ?_
  simp only [coefficient, store]
  rw [if_pos ⟨trivial, by omega, by omega⟩, Nat.add_sub_cancel_left]

/-- Storing old coefficients plus `extra` into a part adds `extra` at its start. -/
theorem store_poly_add (start length : Nat) (inside : start + length ≤ target.length)
    (extra : Nat → BitMatrix N)
    (added : ∀ index < length,
      values index = device.coefficient (target.split start length) index + extra index) :
    (device.store (target.split start length) values).poly target =
      device.poly target + X ^ start * ofCoefficients length extra := by
  ext1 index
  rw [coeff_add, X_pow_mul, coeff_mul_X_pow', poly, poly, coeff_ofCoefficients,
    coeff_ofCoefficients, coeff_ofCoefficients]
  simp only [coefficient, store, touch_memory, PolyMatrixView.split]
  by_cases part : start ≤ index ∧ index - start < length
  · have moved : target.offset + index - (target.offset + start) = index - start := by omega
    have back : target.offset + start + (index - start) = target.offset + index := by omega
    rw [if_pos (by omega), if_pos ⟨trivial, by omega, by omega⟩, if_pos (by omega),
      if_pos part.1, if_pos part.2, moved, added _ part.2]
    simp only [coefficient, PolyMatrixView.split, back]
  · have kept : ¬ (True ∧ target.offset + start ≤ target.offset + index ∧
        target.offset + index < target.offset + start + length) := by omega
    have none : (if start ≤ index then if index - start < length then extra (index - start) else 0
        else 0) = 0 := by
      split_ifs <;> first | rfl | omega
    rw [if_neg kept, none, add_zero]

end Store

end Device

/-- What a multiplication may do: change `target` and the workspace from `base` on, and reach
into the workspace up to `top`. -/
structure Effect (target : PolyMatrixView) (base top : Nat) (before after : Device N) :
    Prop where
  frame : ∀ view : PolyMatrixView, view.Apart target → view.Below base →
    after.poly view = before.poly view
  grows : before.reach .workspace ≤ after.reach .workspace
  bounded : after.reach .workspace ≤ max (before.reach .workspace) top

namespace Effect

variable {target inner dst src view : PolyMatrixView} {base top innerBase innerTop : Nat}
  {before between after device : Device N}

theorem trans (first : Effect target base top before between)
    (second : Effect target base top between after) : Effect target base top before after where
  frame := fun view apart below =>
    (second.frame view apart below).trans (first.frame view apart below)
  grows := first.grows.trans second.grows
  bounded := by
    have := first.bounded
    have := second.bounded
    omega

theorem weaken (effect : Effect inner innerBase innerTop before after)
    (inside : ∀ view : PolyMatrixView, view.Apart target → view.Below base →
      view.Apart inner ∧ view.Below innerBase)
    (higher : innerTop ≤ top) : Effect target base top before after where
  frame := fun view apart below =>
    effect.frame view (inside view apart below).1 (inside view apart below).2
  grows := effect.grows
  bounded := effect.bounded.trans (max_le_max le_rfl higher)

theorem touch (below : view.Below top) : Effect target base top device (device.touch view) where
  frame := fun other _ _ => device.touch_poly view other
  grows := by
    unfold Device.touch
    split
    · exact le_rfl
    · by_cases workspace : view.data = .workspace
      · simp only [workspace, Function.update_self]
        exact le_max_left _ _
      · simp only [Function.update_of_ne (Ne.symm workspace)]
        exact le_rfl
  bounded := by
    unfold Device.touch
    split
    · exact le_max_left _ _
    · by_cases workspace : view.data = .workspace
      · simp only [workspace, Function.update_self]
        exact max_le_max le_rfl (below workspace)
      · simp only [Function.update_of_ne (Ne.symm workspace)]
        exact le_max_left _ _

theorem store (values : Nat → BitMatrix N) (below : target.Below top) :
    Effect target base top device (device.store target values) :=
  have touched : Effect target base top device (device.touch target) := touch below
  { frame := fun _ apart _ => Device.store_poly_of_apart values apart
    grows := touched.grows
    bounded := touched.bounded }

end Effect

theorem reach_touch (device : Device N) (view : PolyMatrixView)
    (workspace : view.data = .workspace) (positive : 0 < view.length) :
    view.offset + view.length ≤ (device.touch view).reach .workspace := by
  rw [Device.touch, if_neg positive.ne']
  simp only [workspace, Function.update_self]
  exact le_max_right _ _

section Operations

variable {dst src view target : PolyMatrixView} {base top start length : Nat}
  {device : Device N}

theorem polyZeroGpu_effect (below : view.Below top) :
    Effect view base top device (polyZeroGpu view device) :=
  Effect.store _ below

theorem polyZeroGpu_poly : (polyZeroGpu view device).poly view = 0 := by
  rw [polyZeroGpu, Device.store_poly_self, ofCoefficients_zero]

theorem polyCopyGpu_effect (fits : src.length ≤ dst.length) (dstBelow : dst.Below top)
    (srcBelow : src.Below top) : Effect dst base top device (polyCopyGpu dst src device) := by
  have read : (src.split 0 src.length).Below top := srcBelow.split (by omega)
  have written : (dst.split 0 src.length).Below top := dstBelow.split (by omega)
  unfold polyCopyGpu
  simp only [min_eq_right fits]
  exact (Effect.touch read).trans ((Effect.store _ written).weaken
    (fun view apart below => ⟨(apart.symm.split (by omega)).symm, below⟩) le_rfl)

theorem polyCopyGpu_poly (fits : src.length ≤ dst.length) (cleared : device.poly dst = 0) :
    (polyCopyGpu dst src device).poly dst = device.poly src := by
  unfold polyCopyGpu
  simp only [min_eq_right fits]
  rw [Device.store_poly_add _ 0 src.length (by omega) (device.coefficient src),
    Device.touch_poly, cleared, pow_zero, one_mul, zero_add]
  · rfl
  · intro index inside
    have zero := eq_of_ofCoefficients (cleared.trans (ofCoefficients_zero dst.length).symm)
      (show index < dst.length by omega)
    simp only [Device.touch_coefficient, Device.coefficient_split, zero, zero_add]

theorem polyAddGpu_effect (fits : src.length ≤ dst.length) (dstBelow : dst.Below top)
    (srcBelow : src.Below top) : Effect dst base top device (polyAddGpu dst src device) := by
  have read : (src.split 0 src.length).Below top := srcBelow.split (by omega)
  have written : (dst.split 0 src.length).Below top := dstBelow.split (by omega)
  unfold polyAddGpu
  simp only [min_eq_right fits]
  exact (Effect.touch read).trans ((Effect.store _ written).weaken
    (fun view apart below => ⟨(apart.symm.split (by omega)).symm, below⟩) le_rfl)

/-- Adding into a part of `target` adds at the start of the part. -/
theorem polyAddGpu_poly (fits : src.length ≤ length) (inside : start + length ≤ target.length) :
    (polyAddGpu (target.split start length) src device).poly target =
      device.poly target + X ^ start * device.poly src := by
  have part : polyAddGpu (target.split start length) src device =
      (device.touch (src.split 0 src.length)).store (target.split start src.length) fun index =>
        device.coefficient (target.split start length) index + device.coefficient src index := by
    unfold polyAddGpu
    simp only [PolyMatrixView.split, min_eq_right fits, Nat.add_zero]
  rw [part, Device.store_poly_add _ start src.length (by omega) (device.coefficient src),
    Device.touch_poly]
  · rfl
  · intro index inside
    simp only [Device.touch_coefficient, Device.coefficient_split]

theorem polyAddGpu_reach (fits : src.length ≤ dst.length) (workspace : src.data = .workspace)
    (positive : 0 < src.length) :
    src.offset + src.length ≤ (polyAddGpu dst src device).reach .workspace := by
  unfold polyAddGpu
  simp only [min_eq_right fits]
  have written : ∀ values, Effect (dst.split 0 src.length) 0 (dst.offset + src.length)
      (device.touch (src.split 0 src.length))
      ((device.touch (src.split 0 src.length)).store (dst.split 0 src.length) values) :=
    fun values => Effect.store values fun _ => le_rfl
  exact (reach_touch device (src.split 0 src.length) workspace positive).trans (written _).grows

theorem launchLeafConv_poly {C A B : PolyMatrixView} (positiveA : 0 < A.length)
    (sized : C.length = A.length + B.length - 1) :
    (launchLeafConv C A B device).poly C = device.poly A * device.poly B := by
  have whole : C.split 0 (A.length + B.length - 1) = C := by
    rw [← sized]
    rfl
  rw [launchLeafConv, whole, Device.store_poly_self]
  ext1 index
  rw [coeff_ofCoefficients]
  by_cases inside : index < C.length
  · rw [if_pos inside, naiveConvFused_eq _ _ _ positiveA]
    rfl
  · rw [if_neg inside]
    exact (coeff_mul_eq_zero _ _ (by omega)).symm

theorem launchLeafConv_effect {C A B : PolyMatrixView}
    (sized : C.length = A.length + B.length - 1) (belowC : C.Below top) (belowA : A.Below top)
    (belowB : B.Below top) : Effect C base top device (launchLeafConv C A B device) := by
  have whole : C.split 0 (A.length + B.length - 1) = C := by
    rw [← sized]
    rfl
  rw [launchLeafConv, whole]
  exact ((Effect.touch belowA).trans (Effect.touch belowB)).trans (Effect.store _ belowC)

end Operations

end CudaMpqs.PolyArithmetic
