import CudaMpqs.Lingen.PolyArithmetic

/-! # Karatsuba multiplication

`karatsuba_mul` on views of device buffers, its entry points, and the temporaries that it
carves from one workspace. -/

namespace CudaMpqs.Karatsuba

open PolyArithmetic Polynomial

def thresholdSize (threshold : Int) : Nat := (threshold % 2 ^ 64).toNat

def z2Length (k lenA1 lenB1 lenC : Nat) : Nat :=
  let z2Len := if 0 < lenA1 ∧ 0 < lenB1 then lenA1 + lenB1 - 1 else 0
  let z2Len := if lenC ≤ 2 * k then 0 else z2Len
  if lenC < 2 * k + z2Len then (if 2 * k < lenC then lenC - 2 * k else 0) else z2Len

def sumLength (low high : Nat) : Nat := if high < low then low else high

def zeroGap (C : PolyMatrixView) (k z0Len : Nat) (device : Device N) : Device N :=
  let gapEnd := if 2 * k < C.length then 2 * k else C.length
  if z0Len < gapEnd then polyZeroGpu (C.split z0Len (gapEnd - z0Len)) device else device

def halfSum (sum low high : PolyMatrixView) (device : Device N) : Device N :=
  polyAddGpu sum high (polyCopyGpu sum low (polyZeroGpu sum device))

def recombine (C Tmix : PolyMatrixView) (k z0Len z2Len : Nat) (device : Device N) : Device N :=
  let device := polyAddGpu Tmix (C.split 0 z0Len) device
  let device := if 0 < z2Len then polyAddGpu Tmix (C.split (2 * k) z2Len) device else device
  if k < C.length then
    let cmidLen := if C.length < k + Tmix.length then C.length - k else Tmix.length
    polyAddGpu (C.split k cmidLen) (Tmix.split 0 cmidLen) device
  else device

def karatsubaMul (threshold : Int) (C A B : PolyMatrixView) (workspace : Nat)
    (device : Device N) : Device N :=
  if A.length = 0 ∨ B.length = 0 then device
  else if A.length < thresholdSize threshold ∨ B.length < thresholdSize threshold then
    launchLeafConv C A B device
  else
    let minLen := if A.length < B.length then A.length else B.length
    let k := (minLen + 1) / 2
    if _ : k = 0 ∨ A.length ≤ k ∨ B.length ≤ k then launchLeafConv C A B device
    else
      let A0 := A.split 0 k
      let A1 := A.split k (A.length - k)
      let B0 := B.split 0 k
      let B1 := B.split k (B.length - k)
      let z0Len := A0.length + B0.length - 1
      let device := karatsubaMul threshold (C.split 0 z0Len) A0 B0 workspace device
      let z2Len := z2Length k A1.length B1.length C.length
      let asumLen := sumLength A0.length A1.length
      let bsumLen := sumLength B0.length B1.length
      let tmixLen := asumLen + bsumLen - 1
      let Asum : PolyMatrixView := ⟨.workspace, workspace, asumLen⟩
      let Bsum : PolyMatrixView := ⟨.workspace, workspace + asumLen, bsumLen⟩
      let Tmix : PolyMatrixView := ⟨.workspace, workspace + asumLen + bsumLen, tmixLen⟩
      let nextWorkspace := workspace + asumLen + bsumLen + tmixLen
      let device :=
        if 0 < z2Len then
          karatsubaMul threshold (C.split (2 * k) z2Len) A1 B1 nextWorkspace device
        else device
      let device := zeroGap C k z0Len device
      let device := halfSum Asum A0 A1 device
      let device := polyCopyGpu Bsum B0 (polyZeroGpu Bsum device)
      let device := if 0 < B1.length then polyAddGpu Bsum B1 device else device
      let device := karatsubaMul threshold Tmix Asum Bsum nextWorkspace device
      recombine C Tmix k z0Len z2Len device
termination_by A.length
decreasing_by
  all_goals
    simp only [PolyMatrixView.split, sumLength]
    repeat' split
    all_goals omega

structure KaratsubaTuneConfig where
  threshold : Int
  leafKind : PolyMulLeafKind

def karatsubaMulTuned (cfg : KaratsubaTuneConfig) (C A B : PolyMatrixView) (workspace : Nat)
    (device : Device N) : Device N :=
  if A.length = 0 ∨ B.length = 0 then device
  else if A.length < thresholdSize cfg.threshold ∨ B.length < thresholdSize cfg.threshold then
    karatsubaLaunchLeaf cfg.leafKind C A B device
  else karatsubaMul cfg.threshold C A B workspace device

def polyMul (cfg : KaratsubaTuneConfig) (lenA lenB : Nat) (device : Device N) : Device N :=
  karatsubaMulTuned cfg ⟨.product, 0, lenA + lenB - 1⟩ ⟨.operandA, 0, lenA⟩
    ⟨.operandB, 0, lenB⟩ 0 device

def karatsubaWorkspaceSize (N maxDegree : Nat) : Nat := maxDegree * 8 * matSizeBytes N

/-- The temporaries, in matrices, along the heaviest chain of halvings from a shorter length
and the excess of the longer one. An odd length is halved either way. -/
def temporaries (threshold shorter excess : Nat) : Nat :=
  if shorter < threshold ∨ shorter < 2 then 0
  else
    2 * (shorter + excess) - 1 + (if excess = 0 ∧ shorter % 2 = 1 then 2 else 0) +
      max (temporaries threshold (shorter / 2) excess)
        (temporaries threshold ((shorter + 1) / 2) (excess - shorter % 2))
termination_by shorter
decreasing_by all_goals omega

def demand (threshold : Int) (lenA lenB : Nat) : Nat :=
  temporaries (thresholdSize threshold) (min lenA lenB) (max lenA lenB - min lenA lenB)

theorem temporaries_leaf {threshold shorter : Nat} (excess : Nat)
    (leaf : shorter < threshold ∨ shorter < 2) : temporaries threshold shorter excess = 0 := by
  rw [temporaries, if_pos leaf]

theorem temporaries_split {threshold shorter : Nat} (excess : Nat)
    (split : ¬ (shorter < threshold ∨ shorter < 2)) :
    temporaries threshold shorter excess =
      2 * (shorter + excess) - 1 + (if excess = 0 ∧ shorter % 2 = 1 then 2 else 0) +
        max (temporaries threshold (shorter / 2) excess)
          (temporaries threshold ((shorter + 1) / 2) (excess - shorter % 2)) := by
  rw [temporaries, if_neg split]

theorem temporaries_mono {threshold shorter small large : Nat} (ordered : small ≤ large) :
    temporaries threshold shorter small ≤ temporaries threshold shorter large := by
  induction shorter using Nat.strong_induction_on generalizing small large with
  | h shorter induction =>
    by_cases leaf : shorter < threshold ∨ shorter < 2
    · rw [temporaries_leaf _ leaf, temporaries_leaf _ leaf]
    · rw [temporaries_split _ leaf, temporaries_split _ leaf]
      have down := induction (shorter / 2) (by omega) ordered
      have up := induction ((shorter + 1) / 2) (by omega)
        (Nat.sub_le_sub_right ordered (shorter % 2))
      have nested := max_le_max down up
      split_ifs <;> omega

section Demand

variable {threshold : Int} {lenA lenB k : Nat}

theorem demand_split (half : k = (min lenA lenB + 1) / 2) (positive : 0 < k) (leftLarge : k < lenA)
    (rightLarge : k < lenB) (large : thresholdSize threshold ≤ min lenA lenB) :
    demand threshold lenA lenB = 2 * (max k (lenA - k) + max k (lenB - k)) - 1 +
        max (demand threshold (lenA - k) (lenB - k))
          (demand threshold (max k (lenA - k)) (max k (lenB - k))) := by
  unfold demand
  rw [temporaries_split _ (by omega)]
  generalize thresholdSize threshold = limit
  have own : 2 * (min lenA lenB + (max lenA lenB - min lenA lenB)) - 1 +
      (if max lenA lenB - min lenA lenB = 0 ∧ min lenA lenB % 2 = 1 then 2 else 0) =
        2 * (max k (lenA - k) + max k (lenB - k)) - 1 := by
    split_ifs <;> omega
  have low : min (lenA - k) (lenB - k) = min lenA lenB / 2 := by omega
  have lowExcess : max (lenA - k) (lenB - k) - min lenA lenB / 2 =
      max lenA lenB - min lenA lenB := by omega
  have mixed : min (max k (lenA - k)) (max k (lenB - k)) = (min lenA lenB + 1) / 2 := by omega
  have mixedExcess : max (max k (lenA - k)) (max k (lenB - k)) - (min lenA lenB + 1) / 2 =
      max lenA lenB - min lenA lenB - min lenA lenB % 2 := by omega
  rw [own, low, lowExcess, mixed, mixedExcess]

theorem demand_low (half : k = (min lenA lenB + 1) / 2) :
    demand threshold k k ≤ demand threshold (max k (lenA - k)) (max k (lenB - k)) := by
  unfold demand
  have mixed : min (max k (lenA - k)) (max k (lenB - k)) = k := by omega
  rw [mixed, min_self, max_self, Nat.sub_self]
  exact temporaries_mono (Nat.zero_le _)

theorem demand_leaf (leaf : min lenA lenB < thresholdSize threshold ∨ min lenA lenB < 2) :
    demand threshold lenA lenB = 0 := by
  exact temporaries_leaf _ leaf

end Demand

section Pieces

variable {sum low high C Tmix : PolyMatrixView} {base top k z0Len z2Len : Nat}
  {device : Device N}

theorem halfSum_effect (lowFits : low.length ≤ sum.length) (highFits : high.length ≤ sum.length)
    (sumBelow : sum.Below top) (lowBelow : low.Below top) (highBelow : high.Below top) :
    Effect sum base top device (halfSum sum low high device) :=
  ((polyZeroGpu_effect sumBelow).trans (polyCopyGpu_effect lowFits sumBelow lowBelow)).trans
    (polyAddGpu_effect highFits sumBelow highBelow)

theorem halfSum_poly (lowFits : low.length ≤ sum.length) (highFits : high.length ≤ sum.length)
    (lowApart : low.Apart sum) (highApart : high.Apart sum) :
    (halfSum sum low high device).poly sum = device.poly low + device.poly high := by
  have zeroed : ∀ view : PolyMatrixView, view.Apart sum →
      (polyZeroGpu sum device).poly view = device.poly view :=
    fun view apart => Device.store_poly_of_apart _ apart
  have copied : (polyCopyGpu sum low (polyZeroGpu sum device)).poly high = device.poly high := by
    unfold polyCopyGpu
    rw [Device.store_poly_of_apart _ (highApart.symm.split (by omega)).symm, Device.touch_poly,
      zeroed high highApart]
  have added := @polyAddGpu_poly N high sum 0 sum.length
    (polyCopyGpu sum low (polyZeroGpu sum device)) highFits (by omega)
  rw [pow_zero, one_mul, copied, polyCopyGpu_poly lowFits polyZeroGpu_poly,
    zeroed low lowApart] at added
  exact added

theorem zeroGap_eq (inside : 2 * k < C.length) (short : z0Len < 2 * k) :
    zeroGap C k z0Len device = polyZeroGpu (C.split z0Len (2 * k - z0Len)) device := by
  simp only [zeroGap, if_pos inside, if_pos short]

section Recombine

variable (z0Fits : z0Len ≤ Tmix.length) (z2Fits : z2Len ≤ Tmix.length) (z2Positive : 0 < z2Len)
  (z0Inside : z0Len ≤ C.length) (z2Inside : 2 * k + z2Len ≤ C.length)
  (mixInside : k + Tmix.length ≤ C.length) (mixPositive : 0 < Tmix.length)

include z2Positive mixInside mixPositive in
theorem recombine_eq : recombine C Tmix k z0Len z2Len device =
    polyAddGpu (C.split k Tmix.length) (Tmix.split 0 Tmix.length)
      (polyAddGpu Tmix (C.split (2 * k) z2Len) (polyAddGpu Tmix (C.split 0 z0Len) device)) := by
  have inside : k < C.length := by omega
  have fits : ¬ C.length < k + Tmix.length := by omega
  simp only [recombine, if_pos z2Positive, if_pos inside, if_neg fits]

include z0Fits z2Fits z2Positive z2Inside mixInside mixPositive in
theorem recombine_poly (apart : C.Apart Tmix) : (recombine C Tmix k z0Len z2Len device).poly C =
      device.poly C + X ^ k * (device.poly Tmix + device.poly (C.split 0 z0Len) +
        device.poly (C.split (2 * k) z2Len)) := by
  have low := (@polyAddGpu_poly N (C.split 0 z0Len) Tmix 0 Tmix.length device z0Fits (by omega))
  have high := (@polyAddGpu_poly N (C.split (2 * k) z2Len) Tmix 0 Tmix.length
    (polyAddGpu Tmix (C.split 0 z0Len) device) z2Fits (by omega))
  have kept : ∀ (view src : PolyMatrixView) (before : Device N), view.Apart Tmix →
      (polyAddGpu Tmix src before).poly view = before.poly view := by
    intro view src before apart
    unfold polyAddGpu
    rw [Device.store_poly_of_apart _ (apart.symm.split (by omega)).symm, Device.touch_poly]
  rw [recombine_eq z2Positive mixInside mixPositive, polyAddGpu_poly (by exact le_rfl) mixInside]
  rw [pow_zero, one_mul] at low high
  have whole : ∀ before : Device N, before.poly (Tmix.split 0 Tmix.length) = before.poly Tmix :=
    fun _ => rfl
  have highKept : (polyAddGpu Tmix (C.split 0 z0Len) device).poly (C.split (2 * k) z2Len) =
      device.poly (C.split (2 * k) z2Len) := kept _ _ _ (apart.split z2Inside)
  rw [whole, kept C _ _ apart, kept C _ _ apart]
  have mixed : (polyAddGpu Tmix (C.split (2 * k) z2Len)
      (polyAddGpu Tmix (C.split 0 z0Len) device)).poly Tmix =
        device.poly Tmix + device.poly (C.split 0 z0Len) +
          device.poly (C.split (2 * k) z2Len) := by
    rw [← highKept, ← low]
    exact high
  rw [mixed]

include z0Fits z2Fits z2Positive z0Inside z2Inside mixInside mixPositive in
theorem recombine_effect (workspace : Tmix.data = .workspace) (above : base ≤ Tmix.offset)
    (belowC : C.Below top) (belowMix : Tmix.Below top) :
    Effect C base top device (recombine C Tmix k z0Len z2Len device) := by
  have mixing : ∀ (src : PolyMatrixView) (before : Device N), src.length ≤ Tmix.length →
      src.Below top → Effect C base top before (polyAddGpu Tmix src before) :=
    fun src before fits below => (polyAddGpu_effect fits belowMix below).weaken
      (fun view _ lower => ⟨lower.apart above workspace, lower⟩) le_rfl
  rw [recombine_eq z2Positive mixInside mixPositive]
  have lowBelow : (C.split 0 z0Len).Below top := belowC.split (by omega)
  have highBelow : (C.split (2 * k) z2Len).Below top := belowC.split z2Inside
  have middleBelow : (C.split k Tmix.length).Below top := belowC.split mixInside
  have source : (Tmix.split 0 Tmix.length).Below top := belowMix
  have last : ∀ before : Device N, Effect C base top before
      (polyAddGpu (C.split k Tmix.length) (Tmix.split 0 Tmix.length) before) :=
    fun before => (polyAddGpu_effect (by exact le_rfl) middleBelow source).weaken
      (fun view apart below => ⟨(apart.symm.split mixInside).symm, below⟩) le_rfl
  exact ((mixing _ _ z0Fits lowBelow).trans (mixing _ _ z2Fits highBelow)).trans (last _)

include z2Positive mixInside mixPositive in
theorem recombine_reach (workspace : Tmix.data = .workspace) : Tmix.offset + Tmix.length ≤
      (recombine C Tmix k z0Len z2Len device).reach .workspace := by
  rw [recombine_eq z2Positive mixInside mixPositive]
  exact polyAddGpu_reach (by exact le_rfl) workspace mixPositive

end Recombine

end Pieces

/-- How a call is placed: its views end below its workspace and its output is apart from its
operands. -/
structure Placed (C A B : PolyMatrixView) (workspace : Nat) : Prop where
  positiveA : 0 < A.length
  positiveB : 0 < B.length
  sized : C.length = A.length + B.length - 1
  apartA : C.Apart A
  apartB : C.Apart B
  belowC : C.Below workspace
  belowA : A.Below workspace
  belowB : B.Below workspace

structure Multiplied (threshold : Int) (C A B : PolyMatrixView) (workspace : Nat)
    (before after : Device N) : Prop where
  product : after.poly C = before.poly A * before.poly B
  effect : Effect C workspace (workspace + demand threshold A.length B.length) before after
  reached : 0 < demand threshold A.length B.length →
    workspace + demand threshold A.length B.length ≤ after.reach .workspace

section Split

variable {threshold : Int} {C A B : PolyMatrixView} {workspace k : Nat} {device : Device N}

theorem leaf_multiplied (placed : Placed C A B workspace)
    (leaf : demand threshold A.length B.length = 0) :
    Multiplied threshold C A B workspace device (launchLeafConv C A B device) where
  product := launchLeafConv_poly placed.positiveA placed.sized
  effect := by
    rw [leaf]
    exact launchLeafConv_effect placed.sized placed.belowC placed.belowA placed.belowB
  reached := fun positive => absurd leaf positive.ne'

variable (placed : Placed C A B workspace) (half : k = (min A.length B.length + 1) / 2)
  (positive : 0 < k) (leftLarge : k < A.length) (rightLarge : k < B.length)

include placed half positive leftLarge rightLarge in
theorem placed_low : Placed (C.split 0 (2 * k - 1)) (A.split 0 k) (B.split 0 k) workspace := by
  have sized := placed.sized
  constructor
  · exact positive
  · exact positive
  · simp only [PolyMatrixView.split]
    omega
  · exact ((placed.apartA.split (by omega)).symm.split (by omega)).symm
  · exact ((placed.apartB.split (by omega)).symm.split (by omega)).symm
  · exact placed.belowC.split (by omega)
  · exact placed.belowA.split (by omega)
  · exact placed.belowB.split (by omega)

include placed half leftLarge rightLarge in
theorem placed_high {next : Nat} (above : workspace ≤ next) :
    Placed (C.split (2 * k) (A.length - k + (B.length - k) - 1)) (A.split k (A.length - k))
      (B.split k (B.length - k)) next := by
  have sized := placed.sized
  constructor
  · simp only [PolyMatrixView.split]
    omega
  · simp only [PolyMatrixView.split]
    omega
  · rfl
  · exact ((placed.apartA.split (by omega)).symm.split (by omega)).symm
  · exact ((placed.apartB.split (by omega)).symm.split (by omega)).symm
  · exact (placed.belowC.split (by omega)).mono above
  · exact (placed.belowA.split (by omega)).mono above
  · exact (placed.belowB.split (by omega)).mono above

theorem placed_mix {s t : Nat} (sPositive : 0 < s) (tPositive : 0 < t) :
    Placed ⟨.workspace, workspace + s + t, s + t - 1⟩ ⟨.workspace, workspace, s⟩
      ⟨.workspace, workspace + s, t⟩ (workspace + s + t + (s + t - 1)) where
  positiveA := sPositive
  positiveB := tPositive
  sized := rfl
  apartA := fun _ => Or.inr (by simp only; omega)
  apartB := fun _ => Or.inr (by simp only; omega)
  belowC := fun _ => by simp only; omega
  belowA := fun _ => by simp only; omega
  belowB := fun _ => by simp only; omega

include placed half positive leftLarge rightLarge in
private theorem z2Length_eq : z2Length k (A.length - k) (B.length - k) C.length =
    A.length - k + (B.length - k) - 1 := by
  have sized := placed.sized
  simp only [z2Length]
  split_ifs <;> omega

include placed half positive leftLarge rightLarge in
theorem karatsubaMul_split (large : thresholdSize threshold ≤ min A.length B.length) {s t : Nat}
    (leftSum : s = max k (A.length - k)) (rightSum : t = max k (B.length - k)) :
    karatsubaMul threshold C A B workspace device =
      let low := karatsubaMul threshold (C.split 0 (2 * k - 1)) (A.split 0 k) (B.split 0 k)
        workspace device
      let high := karatsubaMul threshold
        (C.split (2 * k) (A.length - k + (B.length - k) - 1)) (A.split k (A.length - k))
        (B.split k (B.length - k)) (workspace + s + t + (s + t - 1)) low
      let gap := polyZeroGpu (C.split (2 * k - 1) 1) high
      let left := halfSum ⟨.workspace, workspace, s⟩ (A.split 0 k) (A.split k (A.length - k)) gap
      let right := halfSum ⟨.workspace, workspace + s, t⟩ (B.split 0 k)
        (B.split k (B.length - k)) left
      let mix := karatsubaMul threshold ⟨.workspace, workspace + s + t, s + t - 1⟩
        ⟨.workspace, workspace, s⟩ ⟨.workspace, workspace + s, t⟩
        (workspace + s + t + (s + t - 1)) right
      recombine C ⟨.workspace, workspace + s + t, s + t - 1⟩ k (2 * k - 1)
        (A.length - k + (B.length - k) - 1) mix := by
  have sized := placed.sized
  have shorter : (if A.length < B.length then A.length else B.length) =
      min A.length B.length := by
    split_ifs <;> omega
  have sumA : sumLength k (A.length - k) = s := by
    unfold sumLength
    split_ifs <;> omega
  have sumB : sumLength k (B.length - k) = t := by
    unfold sumLength
    split_ifs <;> omega
  have z2Positive : 0 < A.length - k + (B.length - k) - 1 := by omega
  have z0 : k + k - 1 = 2 * k - 1 := by omega
  have gap : 2 * k - (2 * k - 1) = 1 := by omega
  have rightHigh : 0 < B.length - k := by omega
  conv_lhs => rw [karatsubaMul]
  rw [if_neg (by omega), if_neg (by omega)]
  simp only [shorter, ← half]
  rw [dif_neg (by omega)]
  simp only [PolyMatrixView.split_length, sumA, sumB, z0,
    z2Length_eq placed half positive leftLarge rightLarge, if_pos z2Positive, if_pos rightHigh,
    zeroGap_eq (show 2 * k < C.length by omega) (show 2 * k - 1 < 2 * k by omega), gap]
  rfl

end Split

section Assembly

variable {threshold : Int} {C A B : PolyMatrixView} {workspace k s t : Nat}
  {device low high right mix : Device N}

structure Parts (C A B Tmix : PolyMatrixView) (k : Nat) (device mix : Device N) : Prop where
  low : mix.poly (C.split 0 (2 * k - 1)) = device.poly (A.split 0 k) * device.poly (B.split 0 k)
  high : mix.poly (C.split (2 * k) (A.length - k + (B.length - k) - 1)) =
    device.poly (A.split k (A.length - k)) * device.poly (B.split k (B.length - k))
  gap : mix.poly (C.split (2 * k - 1) 1) = 0
  middle : mix.poly Tmix = (device.poly (A.split 0 k) + device.poly (A.split k (A.length - k))) *
      (device.poly (B.split 0 k) + device.poly (B.split k (B.length - k)))

theorem Parts.outer {Tmix : PolyMatrixView} (parts : Parts C A B Tmix k device mix)
    (placed : Placed C A B workspace) (positive : 0 < k) (leftLarge : k < A.length)
    (rightLarge : k < B.length) (half : k = (min A.length B.length + 1) / 2) :
    mix.poly C = mix.poly (C.split 0 (2 * k - 1)) +
      X ^ k * X ^ k * mix.poly (C.split (2 * k) (A.length - k + (B.length - k) - 1)) := by
  have sized := placed.sized
  have rest : C.length - (2 * k - 1) - 1 = A.length - k + (B.length - k) - 1 := by omega
  have upper : (C.split (2 * k - 1) (C.length - (2 * k - 1))).split 1
      (C.length - (2 * k - 1) - 1) =
        C.split (2 * k) (A.length - k + (B.length - k) - 1) := by
    simp only [PolyMatrixView.split, rest]
    congr 1
    omega
  have cell : (C.split (2 * k - 1) (C.length - (2 * k - 1))).split 0 1 =
      C.split (2 * k - 1) 1 := rfl
  have powers : (X : (BitMatrix N)[X]) ^ (2 * k - 1) * X ^ 1 = X ^ k * X ^ k := by
    rw [← pow_add, ← pow_add]
    congr 1
    omega
  have inside : 1 ≤ (C.split (2 * k - 1) (C.length - (2 * k - 1))).length := by
    simp only [PolyMatrixView.split_length]
    omega
  rw [mix.poly_split C (show 2 * k - 1 ≤ C.length by omega), mix.poly_split _ inside, cell,
    PolyMatrixView.split_length, upper, parts.gap, zero_add, ← mul_assoc, powers]

private theorem poly_double (value : (BitMatrix N)[X]) : value + value = 0 := by
  ext1 index
  rw [coeff_add, coeff_zero]
  exact BitMatrix.add_self _

theorem Parts.product {Tmix : PolyMatrixView} (parts : Parts C A B Tmix k device mix)
    (outer : mix.poly C = mix.poly (C.split 0 (2 * k - 1)) +
      X ^ k * X ^ k * mix.poly (C.split (2 * k) (A.length - k + (B.length - k) - 1)))
    (leftLarge : k < A.length) (rightLarge : k < B.length) :
    mix.poly C + X ^ k * (mix.poly Tmix + mix.poly (C.split 0 (2 * k - 1)) +
        mix.poly (C.split (2 * k) (A.length - k + (B.length - k) - 1))) =
      device.poly A * device.poly B := by
  rw [outer, parts.low, parts.high, parts.middle,
    device.poly_split A leftLarge.le, device.poly_split B rightLarge.le]
  exact CoefficientProducts.karatsuba_identity poly_double (fun value => X_pow_mul) _ _ _ _

end Assembly

section Sums

variable {C A B : PolyMatrixView} {workspace k s t top : Nat} {device : Device N}

def sums (C A B : PolyMatrixView) (workspace k s t : Nat) (device : Device N) : Device N :=
  halfSum ⟨.workspace, workspace + s, t⟩ (B.split 0 k) (B.split k (B.length - k))
    (halfSum ⟨.workspace, workspace, s⟩ (A.split 0 k) (A.split k (A.length - k))
      (polyZeroGpu (C.split (2 * k - 1) 1) device))

variable (placed : Placed C A B workspace) (positive : 0 < k) (leftLarge : k < A.length)
  (rightLarge : k < B.length) (leftSum : s = max k (A.length - k))
  (rightSum : t = max k (B.length - k))

include placed positive leftLarge rightLarge in
theorem gap_effect (base : Nat) (above : workspace ≤ top) :
    Effect (C.split (2 * k - 1) 1) base top device
      (polyZeroGpu (C.split (2 * k - 1) 1) device) := by
  have sized := placed.sized
  exact polyZeroGpu_effect ((placed.belowC.split (by omega)).mono above)

include placed leftLarge leftSum in
theorem left_effect (base : Nat) (above : workspace + s ≤ top) :
    Effect ⟨.workspace, workspace, s⟩ base top device
      (halfSum ⟨.workspace, workspace, s⟩ (A.split 0 k) (A.split k (A.length - k)) device) := by
  apply halfSum_effect
  · simp only [PolyMatrixView.split]
    omega
  · simp only [PolyMatrixView.split]
    omega
  · exact fun _ => above
  · exact (placed.belowA.split (by omega)).mono (by omega)
  · exact (placed.belowA.split (by omega)).mono (by omega)

include placed rightLarge rightSum in
theorem right_effect (base : Nat) (above : workspace + s + t ≤ top) :
    Effect ⟨.workspace, workspace + s, t⟩ base top device
      (halfSum ⟨.workspace, workspace + s, t⟩ (B.split 0 k) (B.split k (B.length - k)) device) := by
  apply halfSum_effect
  · simp only [PolyMatrixView.split]
    omega
  · simp only [PolyMatrixView.split]
    omega
  · exact fun _ => above
  · exact (placed.belowB.split (by omega)).mono (by omega)
  · exact (placed.belowB.split (by omega)).mono (by omega)

include placed positive leftLarge rightLarge leftSum rightSum in
theorem sums_kept {view : PolyMatrixView} (gap : view.Apart (C.split (2 * k - 1) 1))
    (below : view.Below workspace) :
    (sums C A B workspace k s t device).poly view = device.poly view := by
  have left : view.Apart ⟨.workspace, workspace, s⟩ := below.apart le_rfl rfl
  have right : view.Apart ⟨.workspace, workspace + s, t⟩ :=
    below.apart (Nat.le_add_right _ _) rfl
  have cleared := (@gap_effect N C A B workspace k workspace device placed positive leftLarge
    rightLarge workspace le_rfl).frame view gap below
  have summedA := fun before : Device N => (@left_effect N C A B workspace k s (workspace + s)
    before placed leftLarge leftSum workspace le_rfl).frame view left below
  have summedB := fun before : Device N => (@right_effect N C A B workspace k s t
    (workspace + s + t) before placed rightLarge rightSum workspace le_rfl).frame view right below
  rw [sums, summedB, summedA, cleared]

include placed positive leftLarge rightLarge leftSum rightSum in
theorem sums_effect (above : workspace + s + t ≤ top) :
    Effect C workspace top device (sums C A B workspace k s t device) := by
  have sized := placed.sized
  have cleared := (@gap_effect N C A B workspace k top device placed positive leftLarge
    rightLarge workspace (by omega)).weaken
    (fun view apart below => ⟨(apart.symm.split (by omega)).symm, below⟩) le_rfl
  have summedA := fun before : Device N => (@left_effect N C A B workspace k s top before placed
    leftLarge leftSum workspace (by omega)).weaken
    (fun view (_ : view.Apart C) below => ⟨below.apart le_rfl rfl, below⟩) le_rfl
  have summedB := fun before : Device N => (@right_effect N C A B workspace k s t top before
    placed rightLarge rightSum workspace above).weaken
    (fun view (_ : view.Apart C) below => ⟨below.apart (Nat.le_add_right _ _) rfl, below⟩) le_rfl
  exact (cleared.trans (summedA _)).trans (summedB _)

include placed positive leftLarge rightLarge in
theorem gap_apart_operands : (A.split 0 k).Apart (C.split (2 * k - 1) 1) ∧
    (A.split k (A.length - k)).Apart (C.split (2 * k - 1) 1) ∧
    (B.split 0 k).Apart (C.split (2 * k - 1) 1) ∧
    (B.split k (B.length - k)).Apart (C.split (2 * k - 1) 1) := by
  have sized := placed.sized
  have gapA : (C.split (2 * k - 1) 1).Apart A := placed.apartA.split (by omega)
  have gapB : (C.split (2 * k - 1) 1).Apart B := placed.apartB.split (by omega)
  exact ⟨gapA.symm.split (by omega), gapA.symm.split (by omega), gapB.symm.split (by omega),
    gapB.symm.split (by omega)⟩

include placed positive leftLarge rightLarge leftSum rightSum in
theorem sums_left : (sums C A B workspace k s t device).poly ⟨.workspace, workspace, s⟩ =
    device.poly (A.split 0 k) + device.poly (A.split k (A.length - k)) := by
  rcases gap_apart_operands placed positive leftLarge rightLarge with ⟨low, high, _, _⟩
  have lowBelow : (A.split 0 k).Below workspace := placed.belowA.split (by omega)
  have highBelow : (A.split k (A.length - k)).Below workspace := placed.belowA.split (by omega)
  have behind : (⟨.workspace, workspace, s⟩ : PolyMatrixView).Apart
      ⟨.workspace, workspace + s, t⟩ := fun _ => Or.inl le_rfl
  have cleared := @gap_effect N C A B workspace k workspace device placed positive leftLarge
    rightLarge workspace le_rfl
  have kept := fun before : Device N => (@right_effect N C A B workspace k s t
    (workspace + s + t) before placed rightLarge rightSum (workspace + s) le_rfl).frame _ behind
    fun _ => le_rfl
  rw [sums, kept, halfSum_poly, cleared.frame _ low lowBelow, cleared.frame _ high highBelow]
  · simp only [PolyMatrixView.split]
    omega
  · simp only [PolyMatrixView.split]
    omega
  · exact lowBelow.apart le_rfl rfl
  · exact highBelow.apart le_rfl rfl

include placed positive leftLarge rightLarge leftSum rightSum in
theorem sums_right : (sums C A B workspace k s t device).poly ⟨.workspace, workspace + s, t⟩ =
    device.poly (B.split 0 k) + device.poly (B.split k (B.length - k)) := by
  rcases gap_apart_operands placed positive leftLarge rightLarge with ⟨_, _, low, high⟩
  have lowBelow : (B.split 0 k).Below workspace := placed.belowB.split (by omega)
  have highBelow : (B.split k (B.length - k)).Below workspace := placed.belowB.split (by omega)
  have cleared := @gap_effect N C A B workspace k workspace device placed positive leftLarge
    rightLarge workspace le_rfl
  have kept := fun (before : Device N) (view : PolyMatrixView) (below : view.Below workspace) =>
    (@left_effect N C A B workspace k s (workspace + s) before placed leftLarge leftSum workspace
      le_rfl).frame view (below.apart le_rfl rfl) below
  rw [sums, halfSum_poly, kept _ _ lowBelow, kept _ _ highBelow, cleared.frame _ low lowBelow,
    cleared.frame _ high highBelow]
  · simp only [PolyMatrixView.split]
    omega
  · simp only [PolyMatrixView.split]
    omega
  · exact lowBelow.apart (Nat.le_add_right _ _) rfl
  · exact highBelow.apart (Nat.le_add_right _ _) rfl

include placed positive leftLarge rightLarge leftSum rightSum in
theorem sums_gap : (sums C A B workspace k s t device).poly (C.split (2 * k - 1) 1) = 0 := by
  have sized := placed.sized
  have below : (C.split (2 * k - 1) 1).Below workspace := placed.belowC.split (by omega)
  have summedA := fun before : Device N => (@left_effect N C A B workspace k s (workspace + s)
    before placed leftLarge leftSum workspace le_rfl).frame _ (below.apart le_rfl rfl) below
  have summedB := fun before : Device N => (@right_effect N C A B workspace k s t
    (workspace + s + t) before placed rightLarge rightSum workspace le_rfl).frame _
    (below.apart (Nat.le_add_right _ _) rfl) below
  rw [sums, summedB, summedA, polyZeroGpu_poly]

end Sums

section Step

variable {threshold : Int} {C A B : PolyMatrixView} {workspace k s t : Nat}
  {device low high mix : Device N}
  (placed : Placed C A B workspace) (half : k = (min A.length B.length + 1) / 2)
  (positive : 0 < k) (leftLarge : k < A.length) (rightLarge : k < B.length)
  (leftSum : s = max k (A.length - k)) (rightSum : t = max k (B.length - k))
  (lowDone : Multiplied threshold (C.split 0 (2 * k - 1)) (A.split 0 k) (B.split 0 k) workspace
    device low)
  (highDone : Multiplied threshold (C.split (2 * k) (A.length - k + (B.length - k) - 1))
    (A.split k (A.length - k)) (B.split k (B.length - k)) (workspace + s + t + (s + t - 1))
    low high)
  (mixDone : Multiplied threshold ⟨.workspace, workspace + s + t, s + t - 1⟩
    ⟨.workspace, workspace, s⟩ ⟨.workspace, workspace + s, t⟩ (workspace + s + t + (s + t - 1))
    (sums C A B workspace k s t high) mix)

include placed half positive leftLarge rightLarge lowDone highDone in
private theorem outer_kept {view : PolyMatrixView} (apart : view.Apart C)
    (below : view.Below workspace) :
    high.poly view = device.poly view := by
  have sized := placed.sized
  have first := lowDone.effect.frame view (apart.symm.split (by omega)).symm below
  have second := highDone.effect.frame view (apart.symm.split (by omega)).symm
    (below.mono (by omega))
  exact second.trans first

include placed half positive leftLarge rightLarge leftSum rightSum lowDone highDone mixDone in
/-- What the output and the temporaries hold before the recombination. -/
theorem split_parts : Parts C A B ⟨.workspace, workspace + s + t, s + t - 1⟩ k device mix := by
  have sized := placed.sized
  have operandA : ∀ start length, start + length ≤ A.length →
      high.poly (A.split start length) = device.poly (A.split start length) :=
    fun start length inside => outer_kept placed half positive leftLarge rightLarge lowDone
      highDone (placed.apartA.symm.split inside) (placed.belowA.split inside)
  have operandB : ∀ start length, start + length ≤ B.length →
      high.poly (B.split start length) = device.poly (B.split start length) :=
    fun start length inside => outer_kept placed half positive leftLarge rightLarge lowDone
      highDone (placed.apartB.symm.split inside) (placed.belowB.split inside)
  have mixed : ∀ start length, start + length ≤ C.length → mix.poly (C.split start length) =
        (sums C A B workspace k s t high).poly (C.split start length) := by
    intro start length inside
    have below : (C.split start length).Below workspace := placed.belowC.split inside
    exact mixDone.effect.frame _ (below.apart (by simp only; omega) rfl) (below.mono (by omega))
  have summed : ∀ start length, start + length ≤ C.length →
      (C.split start length).Apart (C.split (2 * k - 1) 1) →
      mix.poly (C.split start length) = high.poly (C.split start length) := by
    intro start length inside apart
    rw [mixed start length inside]
    exact sums_kept placed positive leftLarge rightLarge leftSum rightSum apart
      (placed.belowC.split inside)
  have lowKept : high.poly (C.split 0 (2 * k - 1)) = low.poly (C.split 0 (2 * k - 1)) := by
    have below : (C.split 0 (2 * k - 1)).Below workspace := placed.belowC.split (by omega)
    exact highDone.effect.frame _ (PolyMatrixView.split_apart (by omega)) (below.mono (by omega))
  have highA : low.poly (A.split k (A.length - k)) = device.poly (A.split k (A.length - k)) := by
    have apart : (A.split k (A.length - k)).Apart C := placed.apartA.symm.split (by omega)
    exact lowDone.effect.frame _ (apart.symm.split (by omega)).symm
      (placed.belowA.split (by omega))
  have highB : low.poly (B.split k (B.length - k)) = device.poly (B.split k (B.length - k)) := by
    have apart : (B.split k (B.length - k)).Apart C := placed.apartB.symm.split (by omega)
    exact lowDone.effect.frame _ (apart.symm.split (by omega)).symm
      (placed.belowB.split (by omega))
  constructor
  · rw [summed 0 (2 * k - 1) (by omega) (PolyMatrixView.split_apart (by omega)), lowKept,
      lowDone.product]
  · rw [summed (2 * k) _ (by omega) (PolyMatrixView.split_apart (by omega)).symm,
      highDone.product, highA, highB]
  · rw [mixed (2 * k - 1) 1 (by omega)]
    exact sums_gap placed positive leftLarge rightLarge leftSum rightSum
  · rw [mixDone.product, sums_left placed positive leftLarge rightLarge leftSum rightSum,
      sums_right placed positive leftLarge rightLarge leftSum rightSum, operandA 0 k (by omega),
      operandA k _ (by omega), operandB 0 k (by omega), operandB k _ (by omega)]

include placed half positive leftLarge rightLarge leftSum rightSum in
private theorem split_sizes (large : thresholdSize threshold ≤ min A.length B.length) :
    demand threshold A.length B.length = s + t + (s + t - 1) +
        max (demand threshold (A.length - k) (B.length - k)) (demand threshold s t) ∧
      demand threshold k k ≤ demand threshold s t ∧ 2 * k - 1 ≤ s + t - 1 ∧
      A.length - k + (B.length - k) - 1 ≤ s + t - 1 ∧
      k + (s + t - 1) ≤ C.length := by
  have sized := placed.sized
  have whole := demand_split half positive leftLarge rightLarge large
  have lower := @demand_low threshold A.length B.length k half
  rw [← leftSum, ← rightSum] at whole lower
  refine ⟨?_, lower, ?_, ?_, ?_⟩
  · rw [whole]
    omega
  all_goals omega

include placed half positive leftLarge rightLarge leftSum rightSum lowDone highDone mixDone in
theorem split_multiplied (large : thresholdSize threshold ≤ min A.length B.length) :
    Multiplied threshold C A B workspace device
      (recombine C ⟨.workspace, workspace + s + t, s + t - 1⟩ k (2 * k - 1)
        (A.length - k + (B.length - k) - 1) mix) := by
  have sized := placed.sized
  rcases split_sizes placed half positive leftLarge rightLarge leftSum rightSum large with
    ⟨whole, lowDemand, z0Fits, z2Fits, mixInside⟩
  have parts := split_parts placed half positive leftLarge rightLarge leftSum rightSum lowDone
    highDone mixDone
  have apart : C.Apart ⟨.workspace, workspace + s + t, s + t - 1⟩ :=
    placed.belowC.apart (by simp only; omega) rfl
  have outer := parts.outer placed positive leftLarge rightLarge half
  have z2Positive : 0 < A.length - k + (B.length - k) - 1 := by omega
  have z2Inside : 2 * k + (A.length - k + (B.length - k) - 1) ≤ C.length := by omega
  have mixPositive : 0 < s + t - 1 := by omega
  have lowEffect : Effect C workspace (workspace + demand threshold A.length B.length) device
      low := by
    apply lowDone.effect.weaken
      (fun view apart below => ⟨(apart.symm.split (by omega)).symm, below⟩)
    simp only [PolyMatrixView.split_length]
    omega
  have highEffect : Effect C workspace (workspace + demand threshold A.length B.length) low
      high := by
    apply highDone.effect.weaken
      (fun view apart below => ⟨(apart.symm.split (by omega)).symm, below.mono (by omega)⟩)
    simp only [PolyMatrixView.split_length]
    omega
  have sumsEffect : Effect C workspace (workspace + demand threshold A.length B.length) high
      (sums C A B workspace k s t high) :=
    sums_effect placed positive leftLarge rightLarge leftSum rightSum (by omega)
  have mixEffect : Effect C workspace (workspace + demand threshold A.length B.length)
      (sums C A B workspace k s t high) mix := by
    apply mixDone.effect.weaken
      (fun view _ below => ⟨below.apart (by simp only; omega) rfl, below.mono (by omega)⟩)
    simp only
    omega
  have finalEffect : Effect C workspace (workspace + demand threshold A.length B.length) mix
      (recombine C ⟨.workspace, workspace + s + t, s + t - 1⟩ k (2 * k - 1)
        (A.length - k + (B.length - k) - 1) mix) :=
    recombine_effect z0Fits z2Fits z2Positive (by omega) z2Inside mixInside mixPositive rfl
      (by simp only; omega) (placed.belowC.mono (by omega)) fun _ => by simp only; omega
  have own := @recombine_reach N C ⟨.workspace, workspace + s + t, s + t - 1⟩ k (2 * k - 1) _ mix
    z2Positive mixInside mixPositive rfl
  constructor
  · rw [recombine_poly z0Fits z2Fits z2Positive z2Inside mixInside mixPositive apart]
    exact parts.product outer leftLarge rightLarge
  · exact (((lowEffect.trans highEffect).trans sumsEffect).trans mixEffect).trans finalEffect
  · intro _
    have later := ((sumsEffect.trans mixEffect).trans finalEffect).grows
    have last := finalEffect.grows
    have highReached := highDone.reached
    have mixReached := mixDone.reached
    simp only [PolyMatrixView.split_length] at highReached mixReached own
    rw [whole]
    rcases Nat.eq_zero_or_pos (demand threshold (A.length - k) (B.length - k)) with
      noHigh | someHigh
    · rcases Nat.eq_zero_or_pos (demand threshold s t) with noMix | someMix
      · omega
      · have := mixReached someMix
        omega
    · have := highReached someHigh
      rcases Nat.eq_zero_or_pos (demand threshold s t) with noMix | someMix
      · omega
      · have := mixReached someMix
        omega

end Step

section Main

variable {threshold : Int} {C A B : PolyMatrixView} {workspace lenA lenB : Nat}

/-- A call writes the product, changes nothing below its workspace beside it, and reaches as
far into the workspace as it demands. -/
theorem karatsubaMul_multiplied (placed : Placed C A B workspace) (device : Device N) :
    Multiplied threshold C A B workspace device
      (karatsubaMul threshold C A B workspace device) := by
  generalize size : A.length = length
  induction length using Nat.strong_induction_on generalizing C A B workspace device with
  | h length induction =>
    have positiveA := placed.positiveA
    have positiveB := placed.positiveB
    have shorter : (if A.length < B.length then A.length else B.length) =
        min A.length B.length := by
      split_ifs <;> omega
    by_cases small : A.length < thresholdSize threshold ∨ B.length < thresholdSize threshold
    · have leaf : karatsubaMul threshold C A B workspace device =
          launchLeafConv C A B device := by
        rw [karatsubaMul, if_neg (by omega), if_pos small]
      rw [leaf]
      exact leaf_multiplied placed (demand_leaf (by omega))
    · by_cases single : min A.length B.length < 2
      · have leaf : karatsubaMul threshold C A B workspace device =
            launchLeafConv C A B device := by
          rw [karatsubaMul, if_neg (by omega), if_neg small]
          simp only [shorter]
          rw [dif_pos (by omega)]
        rw [leaf]
        exact leaf_multiplied placed (demand_leaf (Or.inr single))
      · have large : thresholdSize threshold ≤ min A.length B.length := by omega
        obtain ⟨k, half⟩ : ∃ k, k = (min A.length B.length + 1) / 2 := ⟨_, rfl⟩
        have positive : 0 < k := by omega
        have leftLarge : k < A.length := by omega
        have rightLarge : k < B.length := by omega
        rw [karatsubaMul_split placed half positive leftLarge rightLarge large rfl rfl]
        have low := induction k (by omega) (placed_low placed half positive leftLarge
          rightLarge) device rfl
        have high := induction (A.length - k) (by omega)
          (@placed_high C A B workspace k placed half leftLarge rightLarge
            (workspace + max k (A.length - k) + max k (B.length - k) +
              (max k (A.length - k) + max k (B.length - k) - 1)) (by omega))
          (karatsubaMul threshold (C.split 0 (2 * k - 1)) (A.split 0 k) (B.split 0 k)
            workspace device) rfl
        have mix := fun high : Device N => induction (max k (A.length - k)) (by omega)
          (@placed_mix workspace (max k (A.length - k)) (max k (B.length - k)) (by omega)
            (by omega))
          (sums C A B workspace k (max k (A.length - k)) (max k (B.length - k)) high) rfl
        exact split_multiplied placed half positive leftLarge rightLarge rfl rfl low high
          (mix _) large

theorem karatsubaMulTuned_eq (cfg : KaratsubaTuneConfig) (placed : Placed C A B workspace)
    (device : Device N) : karatsubaMulTuned cfg C A B workspace device =
      karatsubaMul cfg.threshold C A B workspace device := by
  have positiveA := placed.positiveA
  have positiveB := placed.positiveB
  rw [karatsubaMulTuned, if_neg (by omega)]
  split
  next small =>
    rw [karatsubaLaunchLeaf_eq cfg.leafKind C B positiveA, karatsubaMul, if_neg (by omega),
      if_pos small]
  next => rfl

def productView (lenA lenB : Nat) : PolyMatrixView := ⟨.product, 0, lenA + lenB - 1⟩

def viewA (lenA : Nat) : PolyMatrixView := ⟨.operandA, 0, lenA⟩

def viewB (lenB : Nat) : PolyMatrixView := ⟨.operandB, 0, lenB⟩

def Device.fresh (memory : Buffer → Nat → BitMatrix N) : Device N := ⟨memory, fun _ => 0⟩

theorem placed_buffers (positiveA : 0 < lenA) (positiveB : 0 < lenB) :
    Placed (productView lenA lenB) (viewA lenA) (viewB lenB) 0 where
  positiveA := positiveA
  positiveB := positiveB
  sized := rfl
  apartA := nofun
  apartB := nofun
  belowC := nofun
  belowA := nofun
  belowB := nofun

/-- The output is the naive product of the operands, and no byte behind the workspace size for
the longer operand is touched. -/
structure Meets (lenA lenB : Nat) (before after : Device N) : Prop where
  product : ∀ index < lenA + lenB - 1, after.coefficient (productView lenA lenB) index =
    polyMulNaiveCpu (lenA + lenB - 1) lenA lenB (before.coefficient (viewA lenA))
      (before.coefficient (viewB lenB)) index
  workspace : after.reach .workspace * matSizeBytes N ≤ karatsubaWorkspaceSize N (max lenA lenB)

theorem karatsubaMul_product (threshold : Int) (positiveA : 0 < lenA) (positiveB : 0 < lenB)
    (device : Device N) {index : Nat} (inside : index < lenA + lenB - 1) :
    (karatsubaMul threshold (productView lenA lenB) (viewA lenA) (viewB lenB) 0
      device).coefficient (productView lenA lenB) index =
      polyMulNaiveCpu (lenA + lenB - 1) lenA lenB (device.coefficient (viewA lenA))
        (device.coefficient (viewB lenB)) index := by
  have done : Multiplied threshold _ _ _ _ device _ :=
    karatsubaMul_multiplied (placed_buffers positiveA positiveB) device
  have product := congrFun (congrArg Polynomial.coeff done.product) index
  rw [polyMulNaiveCpu_eq _ _ inside]
  rw [Device.poly, CoefficientProducts.coeff_ofCoefficients,
    if_pos (show index < (productView lenA lenB).length from inside)] at product
  exact product

theorem polyMul_product (cfg : KaratsubaTuneConfig) (positiveA : 0 < lenA) (positiveB : 0 < lenB)
    (device : Device N) {index : Nat} (inside : index < lenA + lenB - 1) :
    (polyMul cfg lenA lenB device).coefficient (productView lenA lenB) index =
      polyMulNaiveCpu (lenA + lenB - 1) lenA lenB (device.coefficient (viewA lenA))
        (device.coefficient (viewB lenB)) index := by
  have tuned := karatsubaMulTuned_eq cfg (placed_buffers positiveA positiveB) device
  rw [← karatsubaMul_product cfg.threshold positiveA positiveB device inside, ← tuned]
  rfl

theorem polyMul_product_mpb : (polyMul ⟨32, .naiveFusedSmemBMpb⟩ 100 70
        (Device.fresh fun _ _ => (1 : BitMatrix 64))).coefficient (productView 100 70) 168 =
      polyMulNaiveCpu 169 100 70 (fun _ => 1) (fun _ => 1) 168 :=
  polyMul_product ⟨32, .naiveFusedSmemBMpb⟩ (by decide) (by decide) _ (by decide)

/-- From an untouched workspace, a call reaches exactly as far as it demands. -/
theorem karatsubaMul_reach (threshold : Int) (positiveA : 0 < lenA) (positiveB : 0 < lenB)
    (memory : Buffer → Nat → BitMatrix N) :
    (karatsubaMul threshold (productView lenA lenB) (viewA lenA) (viewB lenB) 0
      (Device.fresh memory)).reach .workspace = demand threshold lenA lenB := by
  have done : Multiplied threshold _ _ _ _ (Device.fresh memory) _ :=
    karatsubaMul_multiplied (placed_buffers positiveA positiveB) (Device.fresh memory)
  have bounded := done.effect.bounded
  have reached := done.reached
  simp only [viewA, viewB, Device.fresh] at bounded reached ⊢
  omega

private theorem temporaries_equal (threshold shorter : Nat) :
    temporaries threshold shorter 0 ≤ 8 * shorter := by
  induction shorter using Nat.strong_induction_on with
  | h shorter induction =>
    by_cases leaf : shorter < threshold ∨ shorter < 2
    · rw [temporaries_leaf _ leaf]
      exact Nat.zero_le _
    · rw [temporaries_split _ leaf, Nat.zero_sub]
      have down := induction (shorter / 2) (by omega)
      have up := induction ((shorter + 1) / 2) (by omega)
      split_ifs <;> omega

theorem demand_equal (threshold : Int) (length : Nat) :
    demand threshold length length ≤ 8 * length := by
  rw [demand, min_self, max_self, Nat.sub_self]
  exact temporaries_equal _ _

/-- Every product is the naive one, and the workspace holds just the demands up to eight times
the longer operand. -/
theorem karatsubaMul_meets_iff (threshold : Int) (positiveA : 0 < lenA) (positiveB : 0 < lenB)
    (supported : 0 < matSizeBytes N) (memory : Buffer → Nat → BitMatrix N) :
    Meets lenA lenB (Device.fresh memory)
        (karatsubaMul threshold (productView lenA lenB) (viewA lenA) (viewB lenB) 0
          (Device.fresh memory)) ↔
      demand threshold lenA lenB ≤ 8 * max lenA lenB := by
  have reach := karatsubaMul_reach threshold positiveA positiveB memory
  have fits : demand threshold lenA lenB * matSizeBytes N ≤
      karatsubaWorkspaceSize N (max lenA lenB) ↔
        demand threshold lenA lenB ≤ 8 * max lenA lenB := by
    rw [karatsubaWorkspaceSize, Nat.mul_comm (max lenA lenB) 8]
    exact Nat.mul_le_mul_right_iff supported
  constructor
  · intro meets
    have bounded := meets.workspace
    rw [reach] at bounded
    exact fits.mp bounded
  · intro small
    constructor
    · exact fun index inside =>
        karatsubaMul_product threshold positiveA positiveB (Device.fresh memory) inside
    · rw [reach]
      exact fits.mpr small

theorem karatsubaMul_meets_thousand : Meets 1000 1000 (Device.fresh fun _ _ => (1 : BitMatrix 64))
      (karatsubaMul 32 (productView 1000 1000) (viewA 1000) (viewB 1000) 0
        (Device.fresh fun _ _ => 1)) :=
  (karatsubaMul_meets_iff 32 (by decide) (by decide) (by decide) _).mpr (demand_equal 32 1000)

private theorem temporaries_even {threshold half : Nat} (excess : Nat)
    (split : ¬ (2 * half < threshold ∨ 2 * half < 2)) :
    temporaries threshold (2 * half) excess =
      2 * (2 * half + excess) - 1 + temporaries threshold half excess := by
  have odd : ¬ (excess = 0 ∧ 2 * half % 2 = 1) := by omega
  have down : 2 * half / 2 = half := by omega
  have up : (2 * half + 1) / 2 = half := by omega
  have same : excess - 2 * half % 2 = excess := by omega
  rw [temporaries_split _ split, if_neg odd, down, up, same, max_self, Nat.add_zero]

private theorem demand_unequal : demand 32 2100 1024 = 16938 := by
  have last : temporaries 32 16 1076 = 0 := temporaries_leaf _ (Or.inl (by decide))
  change temporaries 32 (2 * 512) 1076 = _
  rw [temporaries_even _ (by decide), show 512 = 2 * 256 from rfl,
    temporaries_even _ (by decide), show 256 = 2 * 128 from rfl,
    temporaries_even _ (by decide), show 128 = 2 * 64 from rfl,
    temporaries_even _ (by decide), show 64 = 2 * 32 from rfl,
    temporaries_even _ (by decide), show 32 = 2 * 16 from rfl,
    temporaries_even _ (by decide), last]

theorem not_karatsubaMul_meets : ¬ Meets 2100 1024 (Device.fresh fun _ _ => (1 : BitMatrix 64))
      (karatsubaMul 32 (productView 2100 1024) (viewA 2100) (viewB 1024) 0
        (Device.fresh fun _ _ => 1)) := by
  intro meets
  have bounded := meets.workspace
  rw [karatsubaMul_reach 32 (by decide) (by decide), demand_unequal] at bounded
  exact absurd bounded (by decide)

end Main

end CudaMpqs.Karatsuba
