import CudaMpqs.Common.UInt512Sqrt
import CudaMpqs.Sieve.PolynomialGeneration
import CudaMpqs.Sieve.PolynomialRoots
import CudaMpqs.Sieve.WideAccumulator

/-! # The byte accumulator of the narrow sieve

`initiate` keeps the byte counters of `sieveAndScanBatchKernel` when a sampled
estimate of the polynomial values leaves a margin. The kernel adds the logs of
the primes to words of four counters. -/

namespace CudaMpqs

open PackedLanes SignedSum

/-! ## The dispatch -/

def aTarget (N : UInt512) (M : Nat) : UInt512 :=
  (N.isqrt2N.divUInt32Inplace (BitVec.ofNat 32 M)).1

def predicateWide (M log2A : Nat) : Prop := 256 ≤ apvMax M log2A + 4

instance (M log2A : Nat) : Decidable (predicateWide M log2A) :=
  inferInstanceAs (Decidable (_ ≤ _))

structure KeepsBytes (N a : UInt512) (M : Nat) : Prop where
  above : (aTarget N M).toNat ≤ a.toNat
  below : a.toNat ≤ (aTarget N M).toNat * 100 / 95
  narrow : ¬ predicateWide M a.msb

/-! ## The accumulation -/

def sieveRoots (a : UInt512) (bigBValues : List UInt512) (sieveIntervalStart id : BitVec 32)
    (entry : BitVec 32 × BitVec 32) : BitVec 32 × BitVec 32 :=
  let data := initPrimeDataBatch a bigBValues entry.1 entry.2 sieveIntervalStart
  rootsFromPolyId id data.1 data.2

def activePrimes (factorBase rootN : List (BitVec 32)) (a : UInt512) :
    List (BitVec 32 × BitVec 32) :=
  (factorBase.zip rootN).filter fun entry => decide (¬ entry.1.toNat ∣ a.toNat)

def Hits (p root : BitVec 32) (x : Int) : Prop := (x - root.toNat) % p.toNat = 0

instance (p root : BitVec 32) (x : Int) : Decidable (Hits p root x) :=
  inferInstanceAs (Decidable (_ = _))

def hitLog (p root : BitVec 32) (x : Int) : Nat :=
  if Hits p root x then p.toNat.log2 else 0

def positionLogs (a : UInt512) (bigBValues : List UInt512)
    (sieveIntervalStart id : BitVec 32) (active : List (BitVec 32 × BitVec 32)) (x : Int) :
    Nat :=
  (active.map fun entry =>
    let roots := sieveRoots a bigBValues sieveIntervalStart id entry
    hitLog entry.1 roots.1 x + hitLog entry.1 roots.2 x).sum

/-- The additions of one root to a block; those of the mask primes arrive four
positions at a time. -/
def rootIncrements (start : Int) (size : Nat) (p root : BitVec 32) : List Increment :=
  ((List.range size).filter fun index : Nat => decide (Hits p root (start + index))).map
    fun index => ⟨index, p.toNat.log2, true⟩

def blockIncrements (a : UInt512) (bigBValues : List UInt512)
    (sieveIntervalStart id : BitVec 32) (active : List (BitVec 32 × BitVec 32)) (start : Int)
    (size : Nat) : List Increment :=
  active.flatMap fun entry =>
    let roots := sieveRoots a bigBValues sieveIntervalStart id entry
    rootIncrements start size entry.1 roots.1 ++ rootIncrements start size entry.1 roots.2

theorem total_append (left right : List Increment) (index : Nat) :
    total (left ++ right) index = total left index + total right index := by
  simp [total]

private theorem total_rootIncrements (start : Int) (size : Nat) (p root : BitVec 32) (index : Nat) :
    total (rootIncrements start size p root) index =
      if index < size then hitLog p root (start + index) else 0 := by
  induction size with
  | zero => simp [rootIncrements]
  | succ size induction =>
    have last : rootIncrements start (size + 1) p root = rootIncrements start size p root ++
          if Hits p root (start + size) then [⟨size, p.toNat.log2, true⟩] else [] := by
      unfold rootIncrements
      rw [List.range_succ, List.filter_append, List.map_append]
      congr 1
      by_cases hits : Hits p root (start + size)
      · simp [hits]
      · simp [hits]
    have single : total (if Hits p root (start + size) then
          [(⟨size, p.toNat.log2, true⟩ : Increment)] else []) index =
        if index = size then hitLog p root (start + size) else 0 := by
      unfold hitLog
      by_cases hits : Hits p root (start + size)
      · rw [if_pos hits, if_pos hits, total_cons, total_nil, Nat.add_zero]
        exact if_congr eq_comm rfl rfl
      · rw [if_neg hits, if_neg hits, total_nil, ite_self]
    rw [last, total_append, induction, single]
    rcases Nat.lt_trichotomy index size with below | same | above
    · rw [if_pos below, if_neg below.ne, if_pos (by omega), Nat.add_zero]
    · rw [if_neg (by omega), if_pos same, if_pos (by omega), same, Nat.zero_add]
    · rw [if_neg (by omega), if_neg above.ne', if_neg (by omega)]

theorem total_blockIncrements (a : UInt512) (bigBValues : List UInt512)
    (sieveIntervalStart id : BitVec 32) (active : List (BitVec 32 × BitVec 32)) (start : Int)
    (size index : Nat) :
    total (blockIncrements a bigBValues sieveIntervalStart id active start size) index =
      if index < size then
        positionLogs a bigBValues sieveIntervalStart id active (start + index)
      else 0 := by
  induction active with
  | nil => simp [blockIncrements, positionLogs]
  | cons entry active induction =>
    unfold blockIncrements positionLogs at induction ⊢
    rw [List.flatMap_cons, total_append, induction, List.map_cons, List.sum_cons,
      total_append, total_rootIncrements, total_rootIncrements]
    split
    next => rfl
    next => rfl

/-! ## Logs of the primes of a number -/

theorem sum_log2_le {primes : List Nat} (prime : ∀ p ∈ primes, p.Prime)
    (distinct : primes.Nodup) {V : Nat} (nonzero : V ≠ 0) :
    (primes.map fun p => if p ∣ V then p.log2 else 0).sum ≤ V.log2 := by
  induction primes generalizing V with
  | nil => exact Nat.zero_le _
  | cons p primes induction =>
    rw [List.nodup_cons] at distinct
    have restPrime : ∀ q ∈ primes, q.Prime :=
      fun q member => prime q (List.mem_cons_of_mem p member)
    have pPrime := prime p List.mem_cons_self
    rw [List.map_cons, List.sum_cons]
    by_cases divides : p ∣ V
    · rcases divides with ⟨rest, rfl⟩
      have restNonzero : rest ≠ 0 := right_ne_zero_of_mul nonzero
      have same : (primes.map fun q => if q ∣ p * rest then q.log2 else 0) =
          primes.map fun q => if q ∣ rest then q.log2 else 0 := by
        apply List.map_congr_left
        intro q member
        have different : q ≠ p := by
          rintro rfl
          exact distinct.1 member
        have apart : Nat.Coprime q p :=
          (Nat.coprime_primes (restPrime q member) pPrime).mpr different
        exact if_congr apart.dvd_mul_left rfl rfl
      have product := (log2_mul_bounds pPrime.ne_zero restNonzero).1
      have tail := induction restPrime distinct.2 restNonzero
      rw [if_pos (Nat.dvd_mul_right p rest), same]
      omega
    · rw [if_neg divides, Nat.zero_add]
      exact induction restPrime distinct.2 nonzero

/-! ## The size of a polynomial value -/

theorem signedSum_natAbs_le {terms : List Int} {bound : Nat}
    (small : ∀ term ∈ terms, term.natAbs ≤ bound) (positive : Nat → Bool) :
    (signedSum terms positive).natAbs ≤ terms.length * bound := by
  induction terms generalizing positive with
  | nil => simp [signedSum]
  | cons term terms induction =>
    have first := small term List.mem_cons_self
    have rest := induction (fun other member => small other (List.mem_cons_of_mem _ member))
      (fun index => positive (index + 1))
    rw [signedSum, List.length_cons, Nat.succ_mul]
    cases positive 0 with
    | false => simp only [Bool.false_eq_true, if_false]; omega
    | true => simp only [if_true]; omega

theorem mul_sq_lt_of_narrow {M : Nat} (small : M < 2 ^ 31) {a : UInt512}
    (narrow : ¬ predicateWide M a.msb) : a.toNat * (M * M) < 2 ^ 255 := by
  have middle := apv_le_apvMax M a.msb 0 (by simp)
  have bounds := approxPolyRoot_bounds M
  have rootLe := approxPolyRoot_le M
  unfold predicateWide at narrow
  unfold apv at middle
  generalize approxPolyRoot M = root at *
  have atZero : ((0 : Int) - root).natAbs = root ∧ ((0 : Int) + root).natAbs = root := by omega
  rw [atZero.1, atZero.2, hostIlog2_ofNat (by omega)] at middle
  have aLt : a.toNat < 2 ^ (a.msb + 1) := by
    rw [UInt512.msb_eq_log2]
    exact Nat.lt_log2_self
  have square : ∃ log : Nat, (log : Int) = floorLog2 root ∧ M * M < 2 ^ (2 * log + 3) := by
    by_cases zero : root = 0
    · subst zero
      have tiny : M ≤ 1 := by omega
      have product : M * M ≤ 1 * 1 := Nat.mul_le_mul tiny tiny
      exact ⟨0, rfl, by omega⟩
    · refine ⟨root.log2, by rw [floorLog2, if_neg zero], ?_⟩
      have below : root + 1 ≤ 2 ^ (root.log2 + 1) := Nat.lt_log2_self
      have power : 2 ^ (2 * root.log2 + 3) =
          2 * (2 ^ (root.log2 + 1) * 2 ^ (root.log2 + 1)) := by ring
      have scaled : M * 10000 * (M * 10000) ≤
          (root + 1) * 14142 * ((root + 1) * 14142) :=
        Nat.mul_le_mul bounds.2.le bounds.2.le
      have squares : (root + 1) * (root + 1) ≤
          2 ^ (root.log2 + 1) * 2 ^ (root.log2 + 1) := Nat.mul_le_mul below below
      rw [power]
      have some : 0 < (root + 1) * (root + 1) := Nat.mul_pos (by omega) (by omega)
      nlinarith
  rcases square with ⟨log, same, square⟩
  rw [← same] at middle
  have exponents : a.msb + 1 + (2 * log + 3) ≤ 255 := by omega
  calc a.toNat * (M * M) < 2 ^ (a.msb + 1) * 2 ^ (2 * log + 3) := Nat.mul_lt_mul'' aLt square
    _ = 2 ^ (a.msb + 1 + (2 * log + 3)) := (pow_add _ _ _).symm
    _ ≤ 2 ^ 255 := Nat.pow_le_pow_right Nat.two_pos exponents

theorem toNat_aTarget (N : UInt512) {M : Nat} (positive : 0 < M) (small : M < 2 ^ 31) :
    (aTarget N M).toNat = N.isqrt2N.toNat / M := by
  have value : (BitVec.ofNat 32 M).toNat = M := by
    rw [BitVec.toNat_ofNat]
    exact Nat.mod_eq_of_lt (by omega)
  have nonzero : BitVec.ofNat 32 M ≠ 0 := by
    intro zero
    rw [zero] at value
    exact positive.ne value
  rw [aTarget, UInt512.toNat_divUInt32Inplace _ nonzero, value]

theorem aTarget_bounds {N : UInt512} {M : Nat} (positive : 0 < M) (small : M < 2 ^ 31)
    (fits : 2 * N.toNat < UInt512.cardinality) :
    (aTarget N M).toNat * M * ((aTarget N M).toNat * M) ≤ 2 * N.toNat ∧
      2 * N.toNat < ((aTarget N M).toNat + 1) * M * (((aTarget N M).toNat + 1) * M) := by
  rw [toNat_aTarget N positive small, UInt512.toNat_isqrt2N_of_lt N fits]
  have low := Nat.div_mul_le_self (Nat.sqrt (2 * N.toNat)) M
  have high := Nat.lt_mul_div_succ (Nat.sqrt (2 * N.toNat)) positive
  rw [Nat.mul_comm M] at high
  constructor
  · exact (Nat.mul_le_mul low low).trans (Nat.sqrt_le _)
  · exact (Nat.lt_succ_sqrt _).trans_le (Nat.mul_le_mul high high)

/-- Where `2N` does not fit, `a` is too large for the predicate. -/
theorem cardinality_gt_of_narrow {N a : UInt512} {M : Nat} (positive : 0 < M)
    (small : M < 2 ^ 31) (nonzero : a.toNat ≠ 0) (above : (aTarget N M).toNat ≤ a.toNat)
    (bound : a.toNat * (M * M) < 2 ^ 255) : 2 * N.toNat < UInt512.cardinality := by
  by_contra large
  have scaled := N.le_toNat_isqrt2N (Nat.not_lt.mp large)
  rw [toNat_aTarget N positive small] at above
  have high := Nat.lt_mul_div_succ N.isqrt2N.toNat positive
  have power : 2 ^ 256 = 2 * 2 ^ 255 := Nat.pow_succ'
  rw [power] at scaled
  generalize 2 ^ 255 = half at bound scaled
  have step : M * (N.isqrt2N.toNat / M + 1) ≤ M * (2 * a.toNat) := by
    apply Nat.mul_le_mul_left
    omega
  have wider : M * (2 * a.toNat) ≤ 2 * (a.toNat * (M * M)) := by
    calc M * (2 * a.toNat) = 2 * (a.toNat * M) := by ring
      _ ≤ 2 * (a.toNat * (M * M)) := by
          apply Nat.mul_le_mul_left
          exact Nat.mul_le_mul_left _ (Nat.le_mul_of_pos_left M positive)
  omega

theorem KeepsBytes.value_lt {N a : UInt512} {M : Nat} (keeps : KeepsBytes N a M)
    (positive : 0 < M) (small : M < 2 ^ 31) (nonzero : a.toNat ≠ 0) {b x : Int}
    (inside : x.natAbs ≤ M) (moderate : 2 * b.natAbs ≤ a.toNat * M) :
    ((a.toNat * x + b) ^ 2 - N.toNat).natAbs < a.toNat * 2 ^ 256 := by
  rcases keeps with ⟨above, below, narrow⟩
  have bound := mul_sq_lt_of_narrow small narrow
  have fits := cardinality_gt_of_narrow positive small nonzero above bound
  rcases aTarget_bounds positive small fits with ⟨low, high⟩
  generalize (aTarget N M).toNat = target at above below low high
  have power : 2 ^ 256 = 2 * 2 ^ 255 := Nat.pow_succ'
  rw [power]
  generalize 2 ^ 255 = half at bound
  generalize a.toNat = A at *
  generalize N.toNat = n at *
  have reach : (A * x + b).natAbs * 2 ≤ 3 * (A * M) := by
    have triangle := Int.natAbs_add_le (A * x) b
    rw [Int.natAbs_mul, Int.natAbs_natCast] at triangle
    have product : A * x.natAbs ≤ A * M := Nat.mul_le_mul_left A inside
    omega
  have square : ((A * x + b) ^ 2 : Int) = ((A * x + b).natAbs * (A * x + b).natAbs : Nat) := by
    rw [Nat.cast_mul, Int.natCast_natAbs, abs_mul_abs_self, sq]
  rw [square]
  generalize (A * x + b).natAbs = y at reach
  have ySquare : y * 2 * (y * 2) ≤ 3 * (A * M) * (3 * (A * M)) := Nat.mul_le_mul reach reach
  have least : 95 * (A * M) * (95 * (A * M)) ≤ 100 * (target * M) * (100 * (target * M)) := by
    have ratio : 95 * (A * M) ≤ 100 * (target * M) := by
      calc 95 * (A * M) = 95 * A * M := by ring
        _ ≤ target * 100 * M := by
            apply Nat.mul_le_mul_right
            omega
        _ = 100 * (target * M) := by ring
    exact Nat.mul_le_mul ratio ratio
  have most : 2 * n < 4 * (A * M * (A * M)) := by
    have wider : (target + 1) * M ≤ 2 * (A * M) := by
      calc (target + 1) * M ≤ 2 * A * M := Nat.mul_le_mul_right M (by omega)
        _ = 2 * (A * M) := by ring
    calc 2 * n < (target + 1) * M * ((target + 1) * M) := high
      _ ≤ 2 * (A * M) * (2 * (A * M)) := Nat.mul_le_mul wider wider
      _ = 4 * (A * M * (A * M)) := by ring
  have whole : A * M * (A * M) < A * half := by
    calc A * M * (A * M) = A * (A * (M * M)) := by ring
      _ < A * half := Nat.mul_lt_mul_of_pos_left bound (Nat.pos_of_ne_zero nonzero)
  have doubled : A * (2 * half) = 2 * (A * half) := by ring
  have some : 0 < A * M * (A * M) := by
    have factor : 0 < A * M := Nat.mul_pos (Nat.pos_of_ne_zero nonzero) positive
    exact Nat.mul_pos factor factor
  have yExpand : y * 2 * (y * 2) = 4 * (y * y) := by ring
  have mExpand : 3 * (A * M) * (3 * (A * M)) = 9 * (A * M * (A * M)) := by ring
  have aExpand : 95 * (A * M) * (95 * (A * M)) = 9025 * (A * M * (A * M)) := by ring
  have tExpand : 100 * (target * M) * (100 * (target * M)) =
      10000 * (target * M * (target * M)) := by ring
  rw [yExpand, mExpand] at ySquare
  rw [aExpand, tExpand] at least
  rw [doubled]
  omega

/-! ## The sum at a position -/

/-- What `generateFactorBase` adds: its primes are odd, do not divide `N`, and are
`int`s. -/
structure SieveBase {N : UInt512} (base : FactorBase N) : Prop where
  odd : ∀ p ∈ base.factorBase, p.toNat ≠ 2
  coprime : ∀ p ∈ base.factorBase, ¬ p.toNat ∣ N.toNat
  small : ∀ p ∈ base.factorBase, p.toNat < 2 ^ 31

section Position

variable {a N : UInt512} {p rootN : BitVec 32}

/-- The two roots of an odd prime that does not divide `N` differ. -/
theorem SievePrime.roots_ne (factor : SievePrime a N p rootN) (odd : p.toNat ≠ 2)
    (coprime : ¬ p.toNat ∣ N.toNat) (bigBValues : List UInt512)
    (sieveIntervalStart id : BitVec 32) :
    (sieveRoots a bigBValues sieveIntervalStart id (p, rootN)).1 ≠
      (sieveRoots a bigBValues sieveIntervalStart id (p, rootN)).2 := by
  intro same
  have field : Fact p.toNat.Prime := ⟨factor.prime⟩
  rcases factor.prepared bigBValues sieveIntervalStart with ⟨inverse, unit, prepared⟩
  have roots := prepared.rootsFromPolyId id
  have equal : inverse * (rootN.toNat : ZMod p.toNat) = -(inverse * rootN.toNat) := by
    have first := roots.1.cast
    have second := roots.2.cast
    unfold sieveRoots at same
    rw [same] at first
    exact sub_left_inj.mp (first.symm.trans second)
  have two : (2 : ZMod p.toNat) ≠ 0 := by
    intro zero
    have divides : p.toNat ∣ 2 := by
      rw [← ZMod.natCast_eq_zero_iff]
      exact_mod_cast zero
    exact odd ((Nat.prime_dvd_prime_iff_eq factor.prime Nat.prime_two).mp divides)
  have inverseNonzero : inverse ≠ 0 := left_ne_zero_of_mul_eq_one unit
  have doubled : 2 * (inverse * (rootN.toNat : ZMod p.toNat)) = 0 := by
    rw [two_mul]
    nth_rewrite 2 [equal]
    exact add_neg_cancel _
  have rootZero : (rootN.toNat : ZMod p.toNat) = 0 :=
    (mul_eq_zero.mp ((mul_eq_zero.mp doubled).resolve_left two)).resolve_left inverseNonzero
  apply coprime
  rw [← ZMod.natCast_eq_zero_iff, ← (ZMod.natCast_eq_natCast_iff _ _ _).mpr factor.root,
    Nat.cast_pow, rootZero]
  exact zero_pow two_ne_zero

/-- A prime contributes its log once, and only where it divides the value. -/
theorem SievePrime.hitLog_le (factor : SievePrime a N p rootN) (odd : p.toNat ≠ 2)
    (coprime : ¬ p.toNat ∣ N.toNat) (bigBValues : List UInt512)
    (sieveIntervalStart id : BitVec 32) {x V : Int}
    (value : a.toNat * V = (a.toNat * x + polynomialB bigBValues id) ^ 2 - N.toNat) :
    let roots := sieveRoots a bigBValues sieveIntervalStart id (p, rootN)
    hitLog p roots.1 x + hitLog p roots.2 x ≤
      if p.toNat ∣ V.natAbs then p.toNat.log2 else 0 := by
  have different := factor.roots_ne odd coprime bigBValues sieveIntervalStart id
  have tracks := factor.tracks_id bigBValues sieveIntervalStart id
  change TracksRoots a N _ 0 p (sieveRoots a bigBValues sieveIntervalStart id (p, rootN))
    at tracks
  intro roots
  change roots.1 ≠ roots.2 at different
  change TracksRoots a N _ 0 p roots at tracks
  generalize roots = pair at different tracks
  have congruent (root : BitVec 32) : Hits p root x ↔ x ≡ 0 + root.toNat [ZMOD p.toNat] := by
    rw [zero_add]
    exact Int.emod_eq_emod_iff_emod_sub_eq_zero.symm
  have divides : Hits p pair.1 x ∨ Hits p pair.2 x → p.toNat ∣ V.natAbs := by
    intro hits
    rw [congruent, congruent] at hits
    have solution := (Int.modEq_iff_dvd.mp ((tracks.solutions x).mpr hits).symm)
    rw [← value] at solution
    have prime := Nat.prime_iff_prime_int.mp factor.prime
    rcases prime.dvd_or_dvd solution with first | second
    · exact absurd (Int.natCast_dvd_natCast.mp first) factor.coprime
    · exact Int.natCast_dvd.mp second
  have apart : ¬ (Hits p pair.1 x ∧ Hits p pair.2 x) := by
    rintro ⟨first, second⟩
    rw [congruent, zero_add] at first second
    have residues := first.symm.trans second
    rw [Int.natCast_modEq_iff] at residues
    exact different (BitVec.eq_of_toNat_eq
      (residues.eq_of_lt_of_lt tracks.first_lt tracks.second_lt))
  unfold hitLog
  by_cases first : Hits p pair.1 x
  · have second : ¬ Hits p pair.2 x := fun hits => apart ⟨first, hits⟩
    rw [if_pos first, if_neg second, if_pos (divides (Or.inl first)), Nat.add_zero]
  · rw [if_neg first, Nat.zero_add]
    by_cases second : Hits p pair.2 x
    · rw [if_pos second, if_pos (divides (Or.inr second))]
    · rw [if_neg second]
      exact Nat.zero_le _

private theorem mem_activePrimes {base : FactorBase N} (sieve : SieveBase base)
    {entry : BitVec 32 × BitVec 32}
    (member : entry ∈ activePrimes base.factorBase base.rootN a) :
    SievePrime a N entry.1 entry.2 ∧ entry.1.toNat ≠ 2 ∧ ¬ entry.1.toNat ∣ N.toNat := by
  rcases List.mem_filter.mp member with ⟨zipped, active⟩
  have inside := List.of_mem_zip zipped
  refine ⟨⟨base.prime _ inside.1, sieve.small _ inside.1, of_decide_eq_true active, ?_⟩,
    sieve.odd _ inside.1, sieve.coprime _ inside.1⟩
  exact (List.forall₂_iff_zip.mp base.root).2 zipped

theorem positionLogs_le_log2 {base : FactorBase N} (sieve : SieveBase base)
    (bigBValues : List UInt512) (sieveIntervalStart id : BitVec 32) {x V : Int}
    (value : a.toNat * V = (a.toNat * x + polynomialB bigBValues id) ^ 2 - N.toNat)
    (nonzero : V ≠ 0) :
    positionLogs a bigBValues sieveIntervalStart id
      (activePrimes base.factorBase base.rootN a) x ≤ V.natAbs.log2 := by
  have distinct : ((activePrimes base.factorBase base.rootN a).map
      fun entry => entry.1.toNat).Nodup := by
    have zipped : ((base.factorBase.zip base.rootN).map fun entry => entry.1.toNat).Nodup := by
      have firsts : (base.factorBase.zip base.rootN).map (fun entry => entry.1.toNat) =
          base.factorBase.map BitVec.toNat := by
        nth_rewrite 2 [← List.map_fst_zip base.root.length_eq.le]
        rw [List.map_map]
        rfl
      rw [firsts]
      exact List.pairwise_map.mpr (base.ascending.imp fun order => order.ne)
    exact zipped.sublist (List.filter_sublist.map _)
  have prime : ∀ q ∈ (activePrimes base.factorBase base.rootN a).map
      (fun entry => entry.1.toNat), q.Prime := by
    intro q member
    rcases List.mem_map.mp member with ⟨entry, active, rfl⟩
    exact (mem_activePrimes sieve active).1.prime
  have whole := sum_log2_le prime distinct (Int.natAbs_ne_zero.mpr nonzero)
  refine le_trans ?_ whole
  rw [positionLogs, List.map_map]
  apply List.sum_le_sum
  intro entry member
  rcases mem_activePrimes sieve member with ⟨factor, odd, coprime⟩
  exact factor.hitLog_le odd coprime bigBValues sieveIntervalStart id value

end Position

/-! ## Main result -/

/-- Where `N` is no square and `M` is at least the number of factors of `a`, the
logs at a position fit a byte, and no addition carries. -/
theorem positionLogs_le {N : UInt512} (base : FactorBase N) (sieve : SieveBase base)
    {shcDim : Nat} {indices : List Nat} (selection : Selection base shcDim indices) {M : Nat}
    (small : M < 2 ^ 31) (covers : shcDim ≤ M) (nonsquare : ¬ IsSquare N.toNat) :
    let (a, bigBValues) := recalcA base.factorBase base.rootN indices
    KeepsBytes N a M → ∀ sieveIntervalStart id : BitVec 32,
      let active := activePrimes base.factorBase base.rootN a
      (∀ x : Int, -M ≤ x → x < M → positionLogs a bigBValues sieveIntervalStart id active x ≤ 255) ∧
      ∀ (start : Int) (size : Nat), (∀ index < size, -M ≤ start + index ∧ start + index < M) →
        ∀ order taken : List Increment,
          order.Perm (blockIncrements a bigBValues sieveIntervalStart id active start size) →
          taken <+: order → ∀ index, entry 256 4 (taken.foldl (accumulate 256 4) fun _ => 0) index =
              total taken index := by
  have spec := selection.recalcA_spec
  generalize recalcA base.factorBase base.rootN indices = computed at spec ⊢
  rcases computed with ⟨a, bigBValues⟩
  dsimp only at spec ⊢
  rcases spec with ⟨whole, length, halves, squares⟩
  intro keeps sieveIntervalStart id
  have nonzero : a.toNat ≠ 0 := by
    rw [whole]
    apply (product_pos _).ne'
    intro p member
    rcases List.mem_map.mp member with ⟨index, inside, rfl⟩
    exact (base.getD_prime (selection.inside index inside)).pos
  have moderate : 2 * (polynomialB bigBValues id).natAbs ≤ a.toNat * M := by
    have bound := @signedSum_natAbs_le (bigBValues.map fun B => (B.toNat : Int))
      (a.toNat / 2) (by
        intro term member
        rcases List.mem_map.mp member with ⟨B, inside, rfl⟩
        exact halves B inside) id.getLsbD
    rw [List.length_map, length] at bound
    have half : shcDim * (a.toNat / 2) * 2 ≤ shcDim * a.toNat := by
      rw [Nat.mul_assoc]
      exact Nat.mul_le_mul_left _ (Nat.div_mul_le_self _ _)
    have more : shcDim * a.toNat ≤ a.toNat * M := by
      rw [Nat.mul_comm]
      exact Nat.mul_le_mul_left _ covers
    unfold polynomialB
    omega
  have logs : ∀ x : Int, -M ≤ x → x < M → positionLogs a bigBValues sieveIntervalStart id
        (activePrimes base.factorBase base.rootN a) x ≤ 255 := by
    intro x low high
    have positive : 0 < M := by omega
    have inside : x.natAbs ≤ M := by omega
    have value : (a.toNat : Int) ∣
        (a.toNat * x + polynomialB bigBValues id) ^ 2 - N.toNat := by
      have split : (a.toNat * x + polynomialB bigBValues id) ^ 2 - (N.toNat : Int) =
          a.toNat * (x * (a.toNat * x + 2 * polynomialB bigBValues id)) +
            (polynomialB bigBValues id ^ 2 - N.toNat) := by ring
      rw [split]
      exact dvd_add (dvd_mul_right _ _) (squares id.getLsbD)
    have size := keeps.value_lt positive small nonzero inside moderate
    rcases value with ⟨V, value⟩
    have valueNonzero : V ≠ 0 := by
      rintro rfl
      rw [mul_zero, sub_eq_zero] at value
      apply nonsquare
      refine ⟨(a.toNat * x + polynomialB bigBValues id).natAbs, ?_⟩
      have cast : ((N.toNat : Int)).natAbs =
          ((a.toNat * x + polynomialB bigBValues id) ^ 2).natAbs := by rw [value]
      rw [Int.natAbs_natCast, Int.natAbs_pow, sq] at cast
      exact cast
    have bits : V.natAbs.log2 < 256 := by
      rw [Nat.log2_lt (Int.natAbs_ne_zero.mpr valueNonzero)]
      rw [value, Int.natAbs_mul, Int.natAbs_natCast] at size
      exact Nat.lt_of_mul_lt_mul_left size
    have sum := positionLogs_le_log2 sieve bigBValues sieveIntervalStart id value.symm
      valueNonzero
    omega
  refine ⟨logs, ?_⟩
  intro start size block order taken perm isPrefix index
  have bound (other : Nat) : total taken other ≤ 255 := by
    rcases isPrefix with ⟨rest, rfl⟩
    have sum := total_perm perm other
    rw [total_append, total_blockIncrements] at sum
    split at sum
    next inside =>
        have limit := logs (start + other) (block other inside).1 (block other inside).2
        omega
    next => omega
  rw [entry_foldl_accumulate (by decide) (by decide) taken (fun _ => 0), entry_zero,
    Nat.zero_add]
  intro other
  rw [entry_zero, Nat.zero_add]
  exact Nat.lt_succ_of_le (bound other)

/-! ## Where the bytes do not suffice -/

def trialDivision (p : Nat) : Nat → Bool
  | 0 => true
  | count + 1 => (p % (count + 2) != 0 || count + 2 == p) && trialDivision p count

private theorem trialDivision_spec {p count : Nat} (passes : trialDivision p count = true) {m : Nat}
    (two : 2 ≤ m) (small : m < count + 2) (divides : m ∣ p) : m = p := by
  induction count with
  | zero => omega
  | succ count induction =>
    rw [trialDivision, Bool.and_eq_true, Bool.or_eq_true, bne_iff_ne, beq_iff_eq] at passes
    rcases Nat.lt_or_ge m (count + 2) with below | last
    · exact induction passes.2 below
    · have same : m = count + 2 := by omega
      subst same
      exact passes.1.resolve_left fun nonzero => nonzero (Nat.mod_eq_zero_of_dvd divides)

private theorem prime_of_trialDivision {p : Nat} (two : 2 ≤ p) (small : p < 128 * 128)
    (passes : trialDivision p 126 = true) : p.Prime := by
  by_contra composite
  have least := Nat.minFac_sq_le_self (by omega) composite
  have factor := Nat.minFac_prime (show p ≠ 1 by omega)
  have below : p.minFac < 128 := by
    by_contra large
    have square : 128 * 128 ≤ p.minFac ^ 2 := by
      rw [sq]
      exact Nat.mul_le_mul (Nat.not_lt.mp large) (Nat.not_lt.mp large)
    omega
  have same := trialDivision_spec passes factor.two_le below (Nat.minFac_dvd p)
  rw [same] at factor
  exact composite factor

def FactorBase.ofSmall (N : UInt512) (factorBase rootN : List (BitVec 32))
    (prime : (factorBase.all fun p => decide (2 ≤ p.toNat) && decide (p.toNat < 128 * 128) &&
      trialDivision p.toNat 126) = true)
    (ascending : factorBase.Pairwise fun p q => p.toNat < q.toNat)
    (length : factorBase.length = rootN.length)
    (root : ((factorBase.zip rootN).all fun entry =>
      entry.2.toNat ^ 2 % entry.1.toNat == N.toNat % entry.1.toNat) = true) :
    FactorBase N where
  factorBase := factorBase
  rootN := rootN
  prime p member := by
    have checks := List.all_eq_true.mp prime p member
    simp only [Bool.and_eq_true, decide_eq_true_iff] at checks
    exact prime_of_trialDivision checks.1.1 checks.1.2 checks.2
  ascending := ascending
  root := List.forall₂_iff_zip.mpr
    ⟨length, fun {_ _} member => beq_iff_eq.mp (List.all_eq_true.mp root _ member)⟩

def squareBase : FactorBase (UInt512.ofNat 6606600961) :=
  .ofSmall _ [3, 5, 7, 11, 13, 17, 19, 23, 29, 31, 37, 41, 43, 47, 53, 59, 61, 67, 71, 73, 79,
      83, 89, 97, 101, 103, 107, 109, 113, 127, 131, 137, 139, 149, 151, 157, 163, 167, 173,
      179, 181, 191, 193, 197, 199, 211, 223, 227, 229, 233, 239, 241, 251]
    [1, 1, 3, 2, 5, 4, 1, 1, 6, 1, 8, 19, 11, 18, 21, 21, 29, 10, 14, 32, 10, 24, 24, 5, 24,
      14, 39, 33, 34, 1, 61, 40, 34, 73, 43, 45, 56, 48, 29, 15, 12, 85, 28, 80, 89, 46, 109,
      15, 14, 36, 21, 64, 43]
    (by decide +kernel) (by decide +kernel) rfl (by decide +kernel)

def shortModulus : UInt512 := UInt512.ofNat
  24862800844802810039391261291915624738294805765846729940436307427412516148452730547917163714130746317747538785786235528170107901316212924705414759128385

/-- The prime factors of `a` and those of the value at -1, where the interval is
`[-1, 1)`. -/
def shortBase : FactorBase shortModulus :=
  .ofSmall _ [17, 4099, 4111, 4127, 4129, 4133, 4139, 4153, 4157, 4159, 4177, 4201, 4211, 4217,
      4219, 4229, 4231, 4241, 4243, 4253, 4259, 4261, 6011, 6029, 6053, 6067, 6079, 6089, 6101,
      6113, 6121, 6133, 6173, 6199, 6247, 6257, 6269, 6287, 6361, 6367, 6481, 6781]
    [6, 1052, 879, 1946, 1652, 1426, 361, 1294, 759, 587, 346, 1680, 1242, 497, 445, 46, 1806,
      2012, 1660, 827, 20, 1010, 2657, 736, 1336, 1967, 2101, 1965, 1690, 2692, 2469, 2023,
      3014, 4, 2122, 1840, 1824, 702, 1408, 2165, 780, 1476]
    (by decide +kernel) (by decide +kernel) rfl (by decide +kernel)

theorem aTarget_eq {N : UInt512} {M root : Nat} (positive : 0 < M) (small : M < 2 ^ 31)
    (fits : 2 * N.toNat < UInt512.cardinality) (low : root * root ≤ 2 * N.toNat)
    (high : 2 * N.toNat < (root + 1) * (root + 1)) : (aTarget N M).toNat = root / M := by
  rw [toNat_aTarget N positive small, UInt512.toNat_isqrt2N_of_lt N fits]
  exact congrArg (· / M) (Nat.eq_sqrt.mpr ⟨low, high⟩).symm

theorem toNat_ofNat_of_double_lt {number : Nat} (small : 2 * number < 2 ^ (32 * 16)) :
    (UInt512.ofNat number).toNat = number ∧
      2 * (UInt512.ofNat number).toNat < UInt512.cardinality := by
  rw [UInt512.two_pow_eq_cardinality rfl] at small
  have value : (UInt512.ofNat number).toNat = number := by
    apply UInt512.toNat_ofNat_of_lt
    omega
  rw [value]
  exact ⟨rfl, small⟩

def primeBase : FactorBase (UInt512.ofNat 4693) :=
  .ofSmall _ [101, 103] [42, 26] (by decide +kernel) (by decide +kernel) rfl
    (by decide +kernel)

theorem primeBase_sieveBase : SieveBase primeBase where
  odd := by
    intro p member
    rcases List.mem_cons.mp member with rfl | member
    · decide
    · rw [List.mem_singleton.mp member]
      decide
  coprime := by
    intro p member
    rcases List.mem_cons.mp member with rfl | member
    · decide +kernel
    · rw [List.mem_singleton.mp member]
      decide +kernel
  small := by
    intro p member
    rcases List.mem_cons.mp member with rfl | member
    · decide
    · rw [List.mem_singleton.mp member]
      decide

theorem primeBase_selection : Selection primeBase 1 [0] :=
  ⟨rfl, by decide, by decide, UInt512.toNat_lt (UInt512.ofUInt32 101)⟩

private theorem primeBase_keepsBytes :
    KeepsBytes (UInt512.ofNat 4693) (recalcA primeBase.factorBase primeBase.rootN [0]).1 1 := by
  have number := @toNat_ofNat_of_double_lt 4693 (by decide +kernel)
  have target : (aTarget (UInt512.ofNat 4693) 1).toNat = 96 / 1 :=
    aTarget_eq (by decide) (by decide) number.2 (by rw [number.1]; decide)
      (by rw [number.1]; decide)
  have a : (recalcA primeBase.factorBase primeBase.rootN [0]).1.toNat = 101 := by
    decide +kernel
  constructor
  · rw [target, a]
    decide
  · rw [target, a]
  · decide +kernel

theorem positionLogs_le_prime : positionLogs (recalcA primeBase.factorBase primeBase.rootN [0]).1
      (recalcA primeBase.factorBase primeBase.rootN [0]).2 0 0
      (activePrimes primeBase.factorBase primeBase.rootN
        (recalcA primeBase.factorBase primeBase.rootN [0]).1) 0 ≤ 255 := by
  apply (positionLogs_le primeBase primeBase_sieveBase primeBase_selection (by decide)
    (Nat.le_refl 1) ?_ primeBase_keepsBytes 0 0).1 0 (by decide) (by decide)
  rw [(toNat_ofNat_of_double_lt (by decide +kernel)).1]
  rintro ⟨root, square⟩
  rcases Nat.lt_or_ge root (68 + 1) with low | high
  · have bound := Nat.mul_le_mul (Nat.le_of_lt_succ low) (Nat.le_of_lt_succ low)
    omega
  · have bound := Nat.mul_le_mul high high
    omega

theorem squareBase_keepsBytes : KeepsBytes (UInt512.ofNat 6606600961)
      (recalcA squareBase.factorBase squareBase.rootN [51, 52]).1 2 := by
  have number := @toNat_ofNat_of_double_lt 6606600961 (by decide +kernel)
  have target : (aTarget (UInt512.ofNat 6606600961) 2).toNat = 114948 / 2 :=
    aTarget_eq (by decide) (by decide) number.2 (by rw [number.1]; decide)
      (by rw [number.1]; decide)
  have a : (recalcA squareBase.factorBase squareBase.rootN [51, 52]).1.toNat = 60491 := by
    decide +kernel
  constructor
  · rw [target, a]
    decide
  · rw [target, a]
    decide
  · decide +kernel

private theorem shortBase_keepsBytes :
    KeepsBytes shortModulus
      (recalcA shortBase.factorBase shortBase.rootN (List.range' 22 20)).1 1 := by
  have target : (aTarget shortModulus 1).toNat =
      7051638227362888479591512269962272559684366222169989571680807981534576044077 / 1 :=
    aTarget_eq (by decide) (by decide) (toNat_ofNat_of_double_lt (by decide +kernel)).2
      (by decide +kernel) (by decide +kernel)
  have a : (recalcA shortBase.factorBase shortBase.rootN (List.range' 22 20)).1.toNat =
      7237005102030564717272951047391735419106646541173749677279375465413244910443 := by
    decide +kernel
  constructor
  · rw [target, a]
    decide +kernel
  · rw [target, a]
    decide +kernel
  · decide +kernel

/-- The square of 81281 has a position where every prime hits; and with fewer
positions than factors of `a`, a value can exceed `2 ^ 256`. -/
theorem positionLogs_gt : (KeepsBytes (UInt512.ofNat 6606600961)
        (recalcA squareBase.factorBase squareBase.rootN [51, 52]).1 2 ∧
      255 < positionLogs (recalcA squareBase.factorBase squareBase.rootN [51, 52]).1
        (recalcA squareBase.factorBase squareBase.rootN [51, 52]).2 0 3
        (activePrimes squareBase.factorBase squareBase.rootN
          (recalcA squareBase.factorBase squareBase.rootN [51, 52]).1) (-2)) ∧
    (KeepsBytes shortModulus
        (recalcA shortBase.factorBase shortBase.rootN (List.range' 22 20)).1 1 ∧
      ¬ IsSquare shortModulus.toNat ∧
      255 < positionLogs (recalcA shortBase.factorBase shortBase.rootN (List.range' 22 20)).1
        (recalcA shortBase.factorBase shortBase.rootN (List.range' 22 20)).2 0 0
        (activePrimes shortBase.factorBase shortBase.rootN
          (recalcA shortBase.factorBase shortBase.rootN (List.range' 22 20)).1) (-1)) := by
  refine ⟨⟨squareBase_keepsBytes, by decide +kernel⟩, shortBase_keepsBytes, ?_,
    by decide +kernel⟩
  rw [shortModulus, (toNat_ofNat_of_double_lt (by decide +kernel)).1]
  rintro ⟨root, square⟩
  rcases Nat.lt_or_ge root
      (4986261209042583845950843758532392155102356199354350197472997050557323783129 + 1)
    with low | high
  · have bound := Nat.mul_le_mul (Nat.le_of_lt_succ low) (Nat.le_of_lt_succ low)
    rw [← square] at bound
    exact absurd bound (by decide +kernel)
  · have bound := Nat.mul_le_mul high high
    rw [← square] at bound
    exact absurd bound (by decide +kernel)

end CudaMpqs
