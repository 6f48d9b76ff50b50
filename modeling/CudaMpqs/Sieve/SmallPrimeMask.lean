import Mathlib.Data.List.GetD
import Mathlib.Tactic.NormNum.Prime
import CudaMpqs.Foundation.PackedLanes
import CudaMpqs.Sieve.ModularInverse

/-! # The small-prime mask

`dynamicMask.cuh` adds the smallest primes of the factor base into one periodic mask. The
gather kernel reads it at an offset that the Chinese remainder theorem gives for each
vector of roots, and steps that offset from word to word and from block to block. -/

namespace CudaMpqs

namespace SmallPrimeMask

/-! ## `generateMask` -/

def selectPrimes : List (BitVec 32) → Nat → Nat → Option (Nat × Nat)
  | [], _, _ => none
  | p :: primes, memReq, used =>
    let next := memReq * p.toNat % 2 ^ 32
    if next < 64 * 1024 then selectPrimes primes next (used + 1) else some (memReq, used)

def addMultiples (bytes : List Nat) (p : BitVec 32) : List Nat :=
  (List.range ((bytes.length + p.toNat - 1) / p.toNat)).foldl
    (fun bytes turn => bytes.modify (turn * p.toNat) fun byte => (byte + p.toNat.log2) % 256)
    bytes

structure MaskData where
  period : Nat
  smallPrimesUsed : Nat
  smallPrimeMask8 : List Nat
  crtBaseElements : List (BitVec 32)

def crtBaseElement (period : Nat) (p : BitVec 32) : BitVec 32 :=
  let quotient := BitVec.ofNat 32 (period / p.toNat)
  quotient * modInv quotient p % BitVec.ofNat 32 period

def generateMask (primes : List (BitVec 32)) : Option MaskData :=
  (selectPrimes primes 4 0).map fun (memReq, used) =>
    { period := memReq / 4
      smallPrimesUsed := used
      smallPrimeMask8 := (primes.take used).foldl addMultiples (List.replicate memReq 0)
      crtBaseElements := (primes.take used).map (crtBaseElement (memReq / 4)) }

/-! ## `findMaskOffsets` -/

def kernelPrime (p : BitVec 32) (inactive : Bool) : Int :=
  if inactive then -p.toNat else p.toNat

def rootOf (offset prime : Int) : BitVec 32 :=
  let p := BitVec.ofInt 32 prime
  (BitVec.ofInt 32 (offset.tmod prime) + p) % p

def rootShift (mask : MaskData) (offsets primes : Nat → Int) : BitVec 32 :=
  (List.range mask.smallPrimesUsed).foldl
    (fun shift i => shift + mask.crtBaseElements.getD i 0 * rootOf (offsets i) (primes i)) 0

def alignStep (period offset : Nat) : Nat :=
  if offset % 4 ≠ 0 then offset + period else offset

def findMaskOffset (mask : MaskData) (sieveStart : Int) (offsets primes : Nat → Int) : Nat :=
  let shift := (rootShift mask offsets primes).toNat % mask.period
  let offset := (sieveStart.tmod mask.period + mask.period).toNat % mask.period
  let offset := (if offset < shift then offset + mask.period else offset) - shift
  alignStep mask.period (alignStep mask.period (alignStep mask.period offset)) / 4

/-! ## The fill of `sieveAndScanBatchKernel` -/

def wrapIndex (period index : Nat) : Nat :=
  if period ≤ index then index - period else index

def maskWord (mask : MaskData) (index : Nat) : Nat :=
  mask.smallPrimeMask8.getD (4 * index) 0 + mask.smallPrimeMask8.getD (4 * index + 1) 0 * 256 +
    mask.smallPrimeMask8.getD (4 * index + 2) 0 * 256 ^ 2 +
    mask.smallPrimeMask8.getD (4 * index + 3) 0 * 256 ^ 3

section Fill

variable (mask : MaskData) (blockDim words : Nat)

def fillThread : Nat → Nat → Nat → Nat → List (Nat × Nat)
  | 0, _, _, _ => []
  | turns + 1, i, maskIdx1, maskIdx2 =>
    if i < words then
      (i, (maskWord mask maskIdx1 + maskWord mask maskIdx2) % 2 ^ 32) ::
        fillThread turns (i + blockDim)
          (wrapIndex mask.period (maskIdx1 + blockDim % mask.period))
          (wrapIndex mask.period (maskIdx2 + blockDim % mask.period))
    else []

def blockStores (maskOffset1 maskOffset2 : Nat) : List (Nat × Nat) :=
  (List.range blockDim).flatMap fun thread =>
    fillThread mask blockDim words (words + 1) thread
      (wrapIndex mask.period (maskOffset1 + thread % mask.period))
      (wrapIndex mask.period (maskOffset2 + thread % mask.period))

end Fill

def blockOffset (mask : MaskData) (sievingBlockSize maskOffset : Nat) : Nat → Nat
  | 0 => maskOffset
  | block + 1 =>
    wrapIndex mask.period
      (blockOffset mask sievingBlockSize maskOffset block + sievingBlockSize / 4 % mask.period)

def storeWords (stores : List (Nat × Nat)) (entries : Nat → Nat) : Nat → Nat :=
  stores.foldl (fun entries store => Function.update entries store.1 store.2) entries

def byteAt (entries : Nat → Nat) (k : Nat) : Nat := PackedLanes.entry 256 4 entries k

/-! ## The primes of a mask -/

structure MaskPrimes (primes : List (BitVec 32)) : Prop where
  prime : ∀ p ∈ primes, p.toNat.Prime
  odd : ∀ p ∈ primes, p.toNat ≠ 2
  nodup : primes.Nodup
  fits : 4 * (primes.map BitVec.toNat).prod < 64 * 1024

section Primes

variable {primes : List (BitVec 32)} {p q : BitVec 32}

def period (primes : List (BitVec 32)) : Nat := (primes.map BitVec.toNat).prod

theorem MaskPrimes.period_pos (mask : MaskPrimes primes) : 0 < period primes := by
  refine List.prod_pos fun n member => ?_
  rcases List.mem_map.mp member with ⟨p, inside, rfl⟩
  exact (mask.prime p inside).pos

theorem dvd_period (member : p ∈ primes) : p.toNat ∣ period primes :=
  List.dvd_prod (List.mem_map_of_mem member)

theorem MaskPrimes.le_period (mask : MaskPrimes primes) (member : p ∈ primes) :
    p.toNat ≤ period primes :=
  Nat.le_of_dvd mask.period_pos (dvd_period member)

theorem MaskPrimes.period_lt (mask : MaskPrimes primes) : period primes < 2 ^ 14 := by
  have fits := mask.fits
  rw [period]
  omega

theorem MaskPrimes.period_odd (mask : MaskPrimes primes) : period primes % 2 = 1 := by
  refine Nat.two_dvd_ne_zero.mp fun even => ?_
  rcases (Nat.prime_two.prime.dvd_prod_iff).mp even with ⟨n, member, divides⟩
  rcases List.mem_map.mp member with ⟨p, inside, rfl⟩
  exact mask.odd p inside ((Nat.prime_dvd_prime_iff_eq Nat.prime_two
    (mask.prime p inside)).mp divides).symm

theorem period_div (positive : 0 < p.toNat) (member : p ∈ primes) :
    period primes / p.toNat = period (primes.erase p) := by
  have split : p.toNat * period (primes.erase p) = period primes := by
    have permuted := (List.perm_cons_erase member).map BitVec.toNat
    rw [period, period, permuted.prod_eq, List.map_cons, List.prod_cons]
  rw [← split, Nat.mul_div_cancel_left _ positive]

theorem MaskPrimes.not_dvd_quotient (mask : MaskPrimes primes) (member : p ∈ primes) :
    ¬ p.toNat ∣ period primes / p.toNat := by
  rw [period_div (mask.prime p member).pos member]
  intro divides
  rcases ((mask.prime p member).prime.dvd_prod_iff).mp divides with ⟨n, inside, dvd⟩
  rcases List.mem_map.mp inside with ⟨q, other, rfl⟩
  have same : p = q := BitVec.eq_of_toNat_eq ((Nat.prime_dvd_prime_iff_eq
    (mask.prime p member) (mask.prime q (List.mem_of_mem_erase other))).mp dvd)
  exact (mask.nodup.mem_erase_iff.mp other).1 same.symm

theorem MaskPrimes.dvd_quotient (mask : MaskPrimes primes) (member : p ∈ primes)
    (other : q ∈ primes) (differ : q ≠ p) : q.toNat ∣ period primes / p.toNat := by
  rw [period_div (mask.prime p member).pos member]
  exact dvd_period ((List.mem_erase_of_ne differ).mpr other)

theorem MaskPrimes.crtBaseElement_cast (mask : MaskPrimes primes) (member : p ∈ primes)
    (other : q ∈ primes) :
    ((crtBaseElement (period primes) p).toNat : ZMod q.toNat) = if q = p then 1 else 0 := by
  have bound := mask.period_lt
  have quotientLe : period primes / p.toNat ≤ period primes := Nat.div_le_self _ _
  have quotient : (BitVec.ofNat 32 (period primes / p.toNat)).toNat = period primes / p.toNat := by
    rw [BitVec.toNat_ofNat, Nat.mod_eq_of_lt (by omega)]
  have inverse := modInv_inverse (mask.prime p member)
    (quotient.symm ▸ mask.not_dvd_quotient member)
  rcases inverse with ⟨value, residue, one⟩
  rw [quotient] at one
  have small : period primes / p.toNat *
      (modInv (BitVec.ofNat 32 (period primes / p.toNat)) p).toNat ≤ period primes :=
    (Nat.mul_le_mul_left _ residue.lt.le).trans (Nat.div_mul_le_self _ _)
  have reduced : ((crtBaseElement (period primes) p).toNat : ZMod q.toNat) =
      ((period primes / p.toNat *
        (modInv (BitVec.ofNat 32 (period primes / p.toNat)) p).toNat : Nat) : ZMod q.toNat) := by
    rw [crtBaseElement, BitVec.toNat_umod, BitVec.toNat_mul, quotient, BitVec.toNat_ofNat,
      Nat.mod_eq_of_lt (by omega : period primes < 2 ^ 32),
      Nat.mod_eq_of_lt (small.trans_lt (by omega : period primes < 2 ^ 32)),
      ZMod.natCast_eq_natCast_iff', Nat.mod_mod_of_dvd _ (dvd_period other)]
  rw [reduced, Nat.cast_mul]
  by_cases same : q = p
  · subst same
    rw [if_pos rfl, residue.cast, mul_comm, one]
  · rw [if_neg same, (ZMod.natCast_eq_zero_iff _ _).mpr (mask.dvd_quotient member other same),
      zero_mul]

theorem MaskPrimes.crtBaseElement_le (mask : MaskPrimes primes) (p : BitVec 32) :
    (crtBaseElement (period primes) p).toNat < period primes := by
  have bound := mask.period_lt
  rw [crtBaseElement, BitVec.toNat_umod, BitVec.toNat_ofNat,
    Nat.mod_eq_of_lt (by omega : period primes < 2 ^ 32)]
  exact Nat.mod_lt _ mask.period_pos

end Primes

/-! ## The bytes of the mask -/

section Bytes

variable {primes : List (BitVec 32)}

def hits (primes : List (BitVec 32)) (x : Int) : Nat :=
  (primes.map fun p => if (p.toNat : Int) ∣ x then p.toNat.log2 else 0).sum

def allHits (primes : List (BitVec 32)) : Nat := (primes.map fun p => p.toNat.log2).sum

theorem hits_le (primes : List (BitVec 32)) (x : Int) : hits primes x ≤ allHits primes := by
  refine List.sum_le_sum fun p _ => ?_
  split <;> omega

private theorem two_pow_allHits_le (nonzero : ∀ p ∈ primes, p.toNat ≠ 0) :
    2 ^ allHits primes ≤ period primes := by
  induction primes with
  | nil => exact le_rfl
  | cons p primes rest =>
    have later := rest fun q member => nonzero q (List.mem_cons_of_mem p member)
    have first := Nat.log2_self_le (nonzero p List.mem_cons_self)
    rw [allHits, List.map_cons, List.sum_cons, pow_add, period, List.map_cons, List.prod_cons]
    exact Nat.mul_le_mul first later

theorem MaskPrimes.allHits_lt (mask : MaskPrimes primes) : allHits primes < 14 := by
  have power := two_pow_allHits_le fun p member => (mask.prime p member).ne_zero
  exact (Nat.pow_lt_pow_iff_right one_lt_two).mp (power.trans_lt mask.period_lt)

theorem foldl_modify_length (p : BitVec 32) (turns : Nat) (bytes : List Nat) :
    ((List.range turns).foldl (fun bytes turn => bytes.modify (turn * p.toNat) fun byte =>
      (byte + p.toNat.log2) % 256) bytes).length = bytes.length := by
  induction turns with
  | zero => rfl
  | succ turns previous =>
    rw [List.range_succ, List.foldl_append, List.foldl_cons, List.foldl_nil,
      List.length_modify, previous]

theorem getD_foldl_modify {p : BitVec 32} (positive : 0 < p.toNat) (turns : Nat)
    (bytes : List Nat) {j : Nat} (inside : j < bytes.length) :
    ((List.range turns).foldl (fun bytes turn => bytes.modify (turn * p.toNat) fun byte =>
      (byte + p.toNat.log2) % 256) bytes).getD j 0 =
        if p.toNat ∣ j ∧ j < turns * p.toNat then (bytes.getD j 0 + p.toNat.log2) % 256
        else bytes.getD j 0 := by
  induction turns with
  | zero => simp
  | succ turns previous =>
    have length := foldl_modify_length p turns bytes
    rw [List.range_succ, List.foldl_append, List.foldl_cons, List.foldl_nil,
      List.getD_eq_getElem _ _ (by rw [List.length_modify, length]; exact inside),
      List.getElem_modify, ← List.getD_eq_getElem _ 0, previous]
    by_cases last : turns * p.toNat = j
    · have reached : p.toNat ∣ j ∧ j < (turns + 1) * p.toNat := by
        rw [← last, Nat.succ_mul]
        exact ⟨Nat.dvd_mul_left _ _, by omega⟩
      rw [if_pos last, if_pos reached, if_neg fun earlier => by omega]
    · have same : p.toNat ∣ j ∧ j < (turns + 1) * p.toNat ↔
          p.toNat ∣ j ∧ j < turns * p.toNat := by
        refine and_congr_right fun ⟨k, split⟩ => ?_
        rw [split, Nat.mul_comm, Nat.mul_lt_mul_right positive, Nat.mul_lt_mul_right positive]
        have differs : k ≠ turns := fun equal => last (by rw [split, equal, Nat.mul_comm])
        omega
      rw [if_neg last, if_congr same rfl rfl]

theorem addMultiples_length (bytes : List Nat) (p : BitVec 32) :
    (addMultiples bytes p).length = bytes.length := foldl_modify_length p _ bytes

private theorem getD_addMultiples {p : BitVec 32} (positive : 0 < p.toNat) {bytes : List Nat}
    {j : Nat}
    (inside : j < bytes.length) (fits : bytes.getD j 0 + p.toNat.log2 < 256) :
    (addMultiples bytes p).getD j 0 =
      bytes.getD j 0 + if (p.toNat : Int) ∣ j then p.toNat.log2 else 0 := by
  have turns : bytes.length ≤ (bytes.length + p.toNat - 1) / p.toNat * p.toNat := by
    have division := Nat.div_add_mod (bytes.length + p.toNat - 1) p.toNat
    have remainder := Nat.mod_lt (bytes.length + p.toNat - 1) positive
    rw [Nat.mul_comm] at division
    omega
  have reached : p.toNat ∣ j ∧ j < (bytes.length + p.toNat - 1) / p.toNat * p.toNat ↔
      (p.toNat : Int) ∣ j := by
    rw [Int.natCast_dvd_natCast]
    exact and_iff_left (inside.trans_le turns)
  rw [addMultiples, getD_foldl_modify positive _ _ inside, if_congr reached rfl rfl]
  split
  next => rw [Nat.mod_eq_of_lt fits]
  next => rw [Nat.add_zero]

theorem getD_foldl_addMultiples (positive : ∀ p ∈ primes, 0 < p.toNat) {bytes : List Nat}
    {j : Nat} (inside : j < bytes.length) (fits : bytes.getD j 0 + allHits primes < 256) :
    (primes.foldl addMultiples bytes).getD j 0 = bytes.getD j 0 + hits primes j := by
  induction primes generalizing bytes with
  | nil => rfl
  | cons p primes rest =>
    rw [allHits, List.map_cons, List.sum_cons] at fits
    change _ + (_ + allHits primes) < 256 at fits
    have first := getD_addMultiples (positive p List.mem_cons_self) inside (by omega)
    have step : (if (p.toNat : Int) ∣ j then p.toNat.log2 else 0) ≤ p.toNat.log2 := by
      split <;> omega
    rw [List.foldl_cons, rest (fun q member => positive q (List.mem_cons_of_mem p member))
      (by rw [addMultiples_length]; exact inside) (by rw [first]; omega), first, hits, hits,
      List.map_cons, List.sum_cons, Nat.add_assoc]

end Bytes

def maskData (primes : List (BitVec 32)) : MaskData where
  period := period primes
  smallPrimesUsed := primes.length
  smallPrimeMask8 := primes.foldl addMultiples (List.replicate (4 * period primes) 0)
  crtBaseElements := primes.map (crtBaseElement (period primes))

section Generate

variable {primes rest : List (BitVec 32)} {next : BitVec 32}

private theorem selectPrimes_eq (positive : ∀ p ∈ primes, 0 < p.toNat) {memReq : Nat} (used : Nat)
    (fits : memReq * period primes < 64 * 1024)
    (stops : 64 * 1024 ≤ memReq * period primes * next.toNat)
    (small : memReq * period primes * next.toNat < 2 ^ 32) :
    selectPrimes (primes ++ next :: rest) memReq used =
      some (memReq * period primes, used + primes.length) := by
  induction primes generalizing memReq used with
  | nil =>
    rw [period, List.map_nil, List.prod_nil, Nat.mul_one] at *
    rw [List.nil_append, selectPrimes, Nat.mod_eq_of_lt small]
    exact if_neg (by omega)
  | cons p primes later =>
    have positive' : ∀ q ∈ primes, 0 < q.toNat :=
      fun q member => positive q (List.mem_cons_of_mem p member)
    have split : period (p :: primes) = p.toNat * period primes := by
      rw [period, List.map_cons, List.prod_cons, period]
    have some : 0 < period primes := by
      refine List.prod_pos fun n member => ?_
      rcases List.mem_map.mp member with ⟨q, inside, rfl⟩
      exact positive' q inside
    rw [split, ← Nat.mul_assoc] at fits stops small ⊢
    have below := Nat.le_mul_of_pos_right (memReq * p.toNat) some
    rw [List.cons_append, selectPrimes, Nat.mod_eq_of_lt (by omega)]
    rw [if_pos (by omega), later positive' (used + 1) fits stops small, List.length_cons,
      Nat.add_assoc, Nat.add_comm 1]

theorem generateMask_eq (mask : MaskPrimes primes)
    (stops : 64 * 1024 ≤ 4 * period primes * next.toNat)
    (small : 4 * period primes * next.toNat < 2 ^ 32) :
    generateMask (primes ++ next :: rest) = some (maskData primes) := by
  have selected := @selectPrimes_eq primes rest next (fun p member => (mask.prime p member).pos) 4 0
    mask.fits stops small
  rw [Nat.zero_add] at selected
  rw [generateMask, selected, Option.map_some]
  dsimp only
  rw [List.take_left, Nat.mul_div_cancel_left _ four_pos]
  rfl

end Generate

/-! ## Words -/

section Words

variable {primes : List (BitVec 32)}

theorem getD_mask (mask : MaskPrimes primes) {j : Nat} (inside : j < 4 * period primes) :
    (maskData primes).smallPrimeMask8.getD j 0 = hits primes j := by
  have few := mask.allHits_lt
  have length : j < (List.replicate (4 * period primes) 0).length := by
    rwa [List.length_replicate]
  have zero : (List.replicate (4 * period primes) 0).getD j 0 = 0 := by
    rw [List.getD_eq_getElem _ _ length, List.getElem_replicate]
  rw [maskData, getD_foldl_addMultiples (fun p member => (mask.prime p member).pos) length
    (by omega), zero, Nat.zero_add]

theorem lane_add_words {left right : Nat → Nat} (leftSmall : ∀ j, left j < 128)
    (rightSmall : ∀ j, right j < 128) {j : Nat} (inside : j < 4) :
    PackedLanes.lane 256 ((left 0 + left 1 * 256 + left 2 * 256 ^ 2 + left 3 * 256 ^ 3 +
        (right 0 + right 1 * 256 + right 2 * 256 ^ 2 + right 3 * 256 ^ 3)) % 2 ^ 32) j =
      left j + right j := by
  have l0 := leftSmall 0
  have l1 := leftSmall 1
  have l2 := leftSmall 2
  have l3 := leftSmall 3
  have r0 := rightSmall 0
  have r1 := rightSmall 1
  have r2 := rightSmall 2
  have r3 := rightSmall 3
  rcases (by omega : j = 0 ∨ j = 1 ∨ j = 2 ∨ j = 3) with rfl | rfl | rfl | rfl <;>
    rw [PackedLanes.lane] <;> omega

theorem wrapIndex_add (period x y : Nat) :
    wrapIndex period (x % period + y % period) = (x + y) % period := by
  rw [wrapIndex, Nat.add_mod_eq_ite]

theorem blockOffset_eq (mask : MaskData) (sievingBlockSize : Nat) {maskOffset : Nat}
    (inside : maskOffset < mask.period) (block : Nat) :
    blockOffset mask sievingBlockSize maskOffset block =
      (maskOffset + block * (sievingBlockSize / 4)) % mask.period := by
  induction block with
  | zero => rw [blockOffset, Nat.zero_mul, Nat.add_zero, Nat.mod_eq_of_lt inside]
  | succ block previous => rw [blockOffset, previous, wrapIndex_add, Nat.succ_mul, Nat.add_assoc]

def fillWord (mask : MaskData) (maskOffset1 maskOffset2 i : Nat) : Nat :=
  (maskWord mask ((maskOffset1 + i) % mask.period) +
    maskWord mask ((maskOffset2 + i) % mask.period)) % 2 ^ 32

section Threads

variable (mask : MaskData) (blockDim words maskOffset1 maskOffset2 : Nat)

theorem fillThread_value (turns i : Nat) :
    ∀ store ∈ fillThread mask blockDim words turns i ((maskOffset1 + i) % mask.period)
      ((maskOffset2 + i) % mask.period),
      store.2 = fillWord mask maskOffset1 maskOffset2 store.1 := by
  induction turns generalizing i with
  | zero => exact fun _ member => absurd member List.not_mem_nil
  | succ turns next =>
    rw [fillThread]
    split
    next =>
        rw [wrapIndex_add, wrapIndex_add, Nat.add_assoc, Nat.add_assoc]
        intro store member
        rcases List.mem_cons.mp member with rfl | later
        · rfl
        · exact next (i + blockDim) store later
    next => exact fun _ member => absurd member List.not_mem_nil

theorem fillThread_reaches (turns i idx1 idx2 n : Nat) (enough : n < turns)
    (inside : i + n * blockDim < words) :
    i + n * blockDim ∈ (fillThread mask blockDim words turns i idx1 idx2).map Prod.fst := by
  induction turns generalizing i idx1 idx2 n with
  | zero => omega
  | succ turns next =>
    rw [fillThread, if_pos (by omega), List.map_cons, List.mem_cons]
    rcases n with _ | n
    · exact Or.inl (by rw [Nat.zero_mul, Nat.add_zero])
    · have later := next (i + blockDim)
        (wrapIndex mask.period (idx1 + blockDim % mask.period))
        (wrapIndex mask.period (idx2 + blockDim % mask.period)) n (by omega)
        (by rw [Nat.succ_mul] at inside; omega)
      rw [Nat.succ_mul, Nat.add_comm (n * blockDim), ← Nat.add_assoc]
      exact Or.inr later

end Threads

private theorem storeWords_eq {value : Nat → Nat} {i : Nat} (entries : Nat → Nat) :
    ∀ stores : List (Nat × Nat), (∀ store ∈ stores, store.2 = value store.1) →
      i ∈ stores.map Prod.fst → storeWords stores entries i = value i := by
  intro stores
  induction stores using List.reverseRecOn with
  | nil => exact fun _ member => absurd member List.not_mem_nil
  | append_singleton stores store previous =>
    intro agree member
    rw [storeWords, List.foldl_append, List.foldl_cons, List.foldl_nil]
    by_cases same : i = store.1
    · rw [same, Function.update_self]
      exact agree store (List.mem_append_right _ List.mem_cons_self)
    · rw [Function.update_of_ne same]
      refine previous (fun earlier inside => agree earlier (List.mem_append_left _ inside)) ?_
      rw [List.map_append, List.mem_append, List.map_singleton, List.mem_singleton] at member
      exact member.resolve_right same

theorem fill_eq {mask : MaskData} {blockDim words maskOffset1 maskOffset2 : Nat}
    (threads : 0 < blockDim) (inside1 : maskOffset1 < mask.period)
    (inside2 : maskOffset2 < mask.period) {order : List (Nat × Nat)}
    (permuted : order.Perm (blockStores mask blockDim words maskOffset1 maskOffset2))
    (entries : Nat → Nat) {i : Nat} (inside : i < words) :
    storeWords order entries i = fillWord mask maskOffset1 maskOffset2 i := by
  have start : ∀ {offset : Nat}, offset < mask.period → ∀ thread,
      wrapIndex mask.period (offset + thread % mask.period) = (offset + thread) % mask.period := by
    intro offset below thread
    have wrapped := wrapIndex_add mask.period offset thread
    rwa [Nat.mod_eq_of_lt below] at wrapped
  refine storeWords_eq entries order (fun store member => ?_) ?_
  · rcases List.mem_flatMap.mp (permuted.subset member) with ⟨thread, -, stored⟩
    rw [start inside1, start inside2] at stored
    exact fillThread_value mask blockDim words maskOffset1 maskOffset2 _ thread store stored
  · rw [(permuted.map Prod.fst).mem_iff, blockStores, List.map_flatMap, List.mem_flatMap]
    refine ⟨i % blockDim, List.mem_range.mpr (Nat.mod_lt i threads), ?_⟩
    have split : i % blockDim + i / blockDim * blockDim = i := by
      rw [Nat.mul_comm]
      exact Nat.mod_add_div i blockDim
    have turns : i / blockDim < words + 1 := by
      have le := Nat.div_le_self i blockDim
      omega
    have reached := fillThread_reaches mask blockDim words (words + 1) (i % blockDim)
      (wrapIndex mask.period (maskOffset1 + i % blockDim % mask.period))
      (wrapIndex mask.period (maskOffset2 + i % blockDim % mask.period)) (i / blockDim) turns
      (by rw [split]; exact inside)
    rwa [split] at reached

theorem hits_congr {primes : List (BitVec 32)} {x y : Int}
    (same : (period primes : Int) ∣ x - y) : hits primes x = hits primes y := by
  refine congrArg List.sum (List.map_congr_left fun p member => ?_)
  have divides : (p.toNat : Int) ∣ x - y :=
    (Int.natCast_dvd_natCast.mpr (dvd_period member)).trans same
  exact if_congr (dvd_iff_dvd_of_dvd_sub divides) rfl rfl

theorem maskWord_eq {primes : List (BitVec 32)} (mask : MaskPrimes primes) {index : Nat}
    (inside : index < period primes) :
    maskWord (maskData primes) index =
      hits primes (4 * index + 0 : Nat) + hits primes (4 * index + 1 : Nat) * 256 +
        hits primes (4 * index + 2 : Nat) * 256 ^ 2 +
        hits primes (4 * index + 3 : Nat) * 256 ^ 3 := by
  rw [maskWord, getD_mask mask (by omega), getD_mask mask (by omega),
    getD_mask mask (by omega), getD_mask mask (by omega)]
  rfl

private theorem hits_wrap (primes : List (BitVec 32)) (index rest : Nat) :
    hits primes (4 * (index % period primes) + rest : Nat) =
      hits primes (4 * index + rest : Nat) := by
  refine hits_congr ⟨-(4 * (index / period primes : Nat)), ?_⟩
  have division : ((period primes * (index / period primes) + index % period primes : Nat) : Int) =
      index := congrArg _ (Nat.div_add_mod index (period primes))
  push_cast at division ⊢
  linear_combination 4 * division

/-- Byte `k` of block `block`, by the byte offsets of the two mask positions. -/
theorem byteAt_fill {primes : List (BitVec 32)} (mask : MaskPrimes primes)
    {sievingBlockSize blockDim maskOffset1 maskOffset2 block k : Nat}
    (aligned : 4 ∣ sievingBlockSize) (threads : 0 < blockDim)
    (inside1 : maskOffset1 < period primes) (inside2 : maskOffset2 < period primes)
    {order : List (Nat × Nat)}
    (permuted : order.Perm (blockStores (maskData primes) blockDim (sievingBlockSize / 4)
      (blockOffset (maskData primes) sievingBlockSize maskOffset1 block)
      (blockOffset (maskData primes) sievingBlockSize maskOffset2 block)))
    (entries : Nat → Nat) (inside : k < sievingBlockSize) :
    byteAt (storeWords order entries) k =
      hits primes (4 * maskOffset1 + block * sievingBlockSize + k : Nat) +
        hits primes (4 * maskOffset2 + block * sievingBlockSize + k : Nat) := by
  have positive := mask.period_pos
  have few := mask.allHits_lt
  have small : ∀ x, hits primes x < 128 := fun x => by
    have le := hits_le primes x
    omega
  have reached : ∀ offset : Nat, hits primes
      (4 * ((offset + block * (sievingBlockSize / 4) + k / 4) % period primes) + k % 4 : Nat) =
        hits primes (4 * offset + block * sievingBlockSize + k : Nat) := by
    intro offset
    rcases aligned with ⟨words, rfl⟩
    have total : 4 * (offset + block * (4 * words / 4) + k / 4) + k % 4 =
        4 * offset + block * (4 * words) + k := by
      rw [Nat.mul_div_cancel_left _ four_pos, Nat.mul_left_comm block]
      omega
    rw [hits_wrap, total]
  have offset1 := blockOffset_eq (maskData primes) sievingBlockSize inside1 block
  have offset2 := blockOffset_eq (maskData primes) sievingBlockSize inside2 block
  rw [byteAt, PackedLanes.entry, fill_eq threads (offset1 ▸ Nat.mod_lt _ positive)
    (offset2 ▸ Nat.mod_lt _ positive) permuted entries (by omega), fillWord, offset1, offset2,
    Nat.mod_add_mod, Nat.mod_add_mod]
  change PackedLanes.lane 256 ((maskWord (maskData primes) (_ % period primes) +
    maskWord (maskData primes) (_ % period primes)) % 2 ^ 32) (k % 4) = _
  rw [maskWord_eq mask (Nat.mod_lt _ positive), maskWord_eq mask (Nat.mod_lt _ positive),
    @lane_add_words
      (fun j => hits primes (4 * ((maskOffset1 + block * (sievingBlockSize / 4) + k / 4) %
        period primes) + j : Nat))
      (fun j => hits primes (4 * ((maskOffset2 + block * (sievingBlockSize / 4) + k / 4) %
        period primes) + j : Nat)) (fun _ => small _) (fun _ => small _) (k % 4)
      (Nat.mod_lt k four_pos), reached, reached]

end Words

/-! ## The offset of a root vector -/

section Offset

private theorem align_spec {period offset : Nat} (odd : period % 2 = 1) (inside : offset < period) :
    let aligned := alignStep period (alignStep period (alignStep period offset))
    aligned % 4 = 0 ∧ aligned < 4 * period ∧ ∃ turns, aligned = offset + turns * period := by
  dsimp only
  by_cases zero : offset % 4 = 0
  · have stay : alignStep period offset = offset := if_neg (not_not.mpr zero)
    rw [stay, stay, stay]
    exact ⟨zero, by omega, 0, by omega⟩
  have first : alignStep period offset = offset + period := if_pos zero
  rw [first]
  by_cases one : (offset + period) % 4 = 0
  · have stay : alignStep period (offset + period) = offset + period := if_neg (not_not.mpr one)
    rw [stay, stay]
    exact ⟨one, by omega, 1, by omega⟩
  have second : alignStep period (offset + period) = offset + period + period := if_pos one
  rw [second]
  by_cases two : (offset + period + period) % 4 = 0
  · have stay : alignStep period (offset + period + period) = offset + period + period :=
      if_neg (not_not.mpr two)
    rw [stay]
    exact ⟨two, by omega, 2, by omega⟩
  · have third : alignStep period (offset + period + period) =
        offset + period + period + period := if_pos two
    have whole : (offset + period + period + period) % 4 = 0 := by
      rcases (by omega : period % 4 = 1 ∨ period % 4 = 3) with residue | residue <;> omega
    rw [third]
    exact ⟨whole, by omega, 3, by omega⟩

/-- The byte offset is aligned and congruent to the start less the shift. -/
theorem findMaskOffset_spec (mask : MaskData) (sieveStart : Int) (offsets primes : Nat → Int)
    (odd : mask.period % 2 = 1) :
    findMaskOffset mask sieveStart offsets primes < mask.period ∧
      (mask.period : Int) ∣ (4 * findMaskOffset mask sieveStart offsets primes : Nat) -
        (sieveStart - (rootShift mask offsets primes).toNat) := by
  have positive : 0 < mask.period := by omega
  have shiftLt := Nat.mod_lt (rootShift mask offsets primes).toNat positive
  have startLt := Nat.mod_lt (sieveStart.tmod mask.period + mask.period).toNat positive
  have low := Int.lt_tmod_of_pos sieveStart (by omega : (0 : Int) < mask.period)
  have startCast : (mask.period : Int) ∣
      ((sieveStart.tmod mask.period + mask.period).toNat % mask.period : Nat) - sieveStart := by
    refine ⟨-((sieveStart.tmod mask.period + mask.period) / mask.period) -
      sieveStart.tdiv mask.period + 1, ?_⟩
    have truncated := Int.tmod_add_mul_tdiv sieveStart mask.period
    have division := Int.emod_add_mul_ediv (sieveStart.tmod mask.period + mask.period) mask.period
    rw [Int.natCast_mod, Int.toNat_of_nonneg (by omega)]
    linear_combination division + truncated
  have shiftCast : (mask.period : Int) ∣ ((rootShift mask offsets primes).toNat : Int) -
      ((rootShift mask offsets primes).toNat % mask.period : Nat) := by
    rw [Int.natCast_mod]
    exact Int.dvd_self_sub_emod
  rw [findMaskOffset]
  generalize (sieveStart.tmod mask.period + mask.period).toNat % mask.period = start
    at startLt startCast ⊢
  generalize (rootShift mask offsets primes).toNat % mask.period = shift at shiftLt shiftCast ⊢
  have lowered : ∃ turns : Nat, (if start < shift then start + mask.period else start) - shift <
      mask.period ∧ (((if start < shift then start + mask.period else start) - shift : Nat) : Int) =
        start - shift + turns * mask.period := by
    by_cases below : start < shift
    · rw [if_pos below]
      exact ⟨1, by omega, by push_cast; omega⟩
    · rw [if_neg below]
      exact ⟨0, by omega, by push_cast; omega⟩
  rcases lowered with ⟨turns, lowLt, lowCast⟩
  rcases align_spec odd lowLt with ⟨aligned, bound, more, raised⟩
  have whole := Nat.mul_div_cancel' (Nat.dvd_of_mod_eq_zero aligned)
  refine ⟨by omega, ?_⟩
  rw [whole, raised]
  rcases startCast with ⟨startTurns, startCast⟩
  rcases shiftCast with ⟨shiftTurns, shiftCast⟩
  refine ⟨startTurns + shiftTurns + turns + more, ?_⟩
  push_cast [lowCast]
  linear_combination startCast + shiftCast

end Offset

/-! ## The shift of a root vector -/

/-- The residue that `rootOf` works with: that of an inactive prime is off by the prime
when the offset is negative. -/
def signedRoot (offset prime : Int) : Int :=
  if prime < 0 ∧ offset.tmod prime < 0 then offset.tmod prime + prime else offset % prime

def signedShift (mask : MaskData) (offsets primes : Nat → Int) : Int :=
  ∑ i ∈ Finset.range mask.smallPrimesUsed,
    (mask.crtBaseElements.getD i 0).toNat * signedRoot (offsets i) (primes i)

section Shift

theorem signedRoot_bounds {prime : Int} (nonzero : prime ≠ 0) (offset : Int) :
    -2 * |prime| < signedRoot offset prime ∧ signedRoot offset prime < |prime| := by
  have below := Int.emod_lt_abs offset nonzero
  have above := Int.emod_nonneg offset nonzero
  have low := Int.lt_tmod_of_pos offset (abs_pos.mpr nonzero)
  have absolute : offset.tmod |prime| = offset.tmod prime := by
    rcases abs_choice prime with same | negated
    · rw [same]
    · rw [negated, Int.tmod_neg]
  rw [absolute] at low
  rw [signedRoot]
  split
  next wrong =>
      have negative := abs_of_neg wrong.1
      omega
  next => omega

theorem dvd_signedRoot (offset prime : Int) : prime ∣ signedRoot offset prime - offset := by
  rw [signedRoot]
  split
  next =>
      have truncated := Int.tmod_add_mul_tdiv offset prime
      exact ⟨1 - offset.tdiv prime, by linear_combination truncated⟩
  next => exact Int.dvd_emod_sub_self

theorem toNat_ofInt_negative {value : Int} (negative : value < 0) (low : -2 ^ 32 < value) :
    (BitVec.ofInt 32 value).toNat = (value + 2 ^ 32).toNat := by
  rw [BitVec.toNat_ofInt]
  omega

theorem toNat_ofInt_nonneg {value : Int} (nonneg : 0 ≤ value) (high : value < 2 ^ 32) :
    (BitVec.ofInt 32 value).toNat = value.toNat := by
  rw [BitVec.toNat_ofInt]
  omega

theorem rootOf_eq {prime : Int} (nonzero : prime ≠ 0) (small : |prime| < 2 ^ 30)
    (offset : Int) : rootOf offset prime = BitVec.ofInt 32 (signedRoot offset prime) := by
  have positive := abs_pos.mpr nonzero
  have low := Int.lt_tmod_of_pos offset positive
  have high := Int.tmod_lt_of_pos offset positive
  have below := Int.emod_lt_abs offset nonzero
  have above := Int.emod_nonneg offset nonzero
  have same : |prime| ∣ offset % prime - offset.tmod prime := by
    rw [abs_dvd]
    have truncated := Int.tmod_add_mul_tdiv offset prime
    have division := Int.emod_add_mul_ediv offset prime
    exact ⟨offset.tdiv prime - offset / prime, by linear_combination division - truncated⟩
  have absolute : offset.tmod |prime| = offset.tmod prime := by
    rcases abs_choice prime with same | negated
    · rw [same]
    · rw [negated, Int.tmod_neg]
  rw [absolute] at low high
  apply BitVec.eq_of_toNat_eq
  rw [rootOf, ← BitVec.ofInt_add, BitVec.toNat_umod, signedRoot]
  rcases lt_or_gt_of_ne nonzero with negative | active
  · rw [abs_of_neg negative] at low high below small same
    rw [toNat_ofInt_negative negative (by omega), toNat_ofInt_negative (by omega) (by omega)]
    by_cases wrong : offset.tmod prime < 0
    · rw [if_pos ⟨negative, wrong⟩, toNat_ofInt_negative (by omega) (by omega),
        Nat.mod_eq_of_lt (by omega)]
    · have residue : offset % prime - offset.tmod prime = 0 :=
        Int.eq_zero_of_abs_lt_dvd same (by rw [abs_lt]; omega)
      rw [if_neg fun both => wrong both.2, toNat_ofInt_nonneg above (by omega)]
      have split : (offset.tmod prime + prime + 2 ^ 32).toNat =
          (offset % prime).toNat + (prime + 2 ^ 32).toNat := by omega
      rw [split, Nat.add_mod_right, Nat.mod_eq_of_lt (by omega)]
  · rw [abs_of_pos active] at low high below small same
    rw [toNat_ofInt_nonneg active.le (by omega), toNat_ofInt_nonneg (by omega) (by omega),
      if_neg fun both => absurd both.1 (by omega), toNat_ofInt_nonneg above (by omega)]
    by_cases wrong : offset.tmod prime < 0
    · have raised : prime ∣ offset % prime - (offset.tmod prime + prime) := by
        rw [← sub_sub]
        exact dvd_sub_self_right.mpr same
      have residue := Int.eq_zero_of_abs_lt_dvd raised (by rw [abs_lt]; omega)
      rw [Nat.mod_eq_of_lt (by omega)]
      omega
    · have residue : offset % prime - offset.tmod prime = 0 :=
        Int.eq_zero_of_abs_lt_dvd same (by rw [abs_lt]; omega)
      have split : (offset.tmod prime + prime).toNat =
          (offset % prime).toNat + prime.toNat := by omega
      rw [split, Nat.add_mod_right, Nat.mod_eq_of_lt (by omega)]

theorem rootShift_eq (mask : MaskData) {offsets primes : Nat → Int}
    (nonzero : ∀ i < mask.smallPrimesUsed, primes i ≠ 0)
    (small : ∀ i < mask.smallPrimesUsed, |primes i| < 2 ^ 30) :
    rootShift mask offsets primes = BitVec.ofInt 32 (signedShift mask offsets primes) := by
  rw [rootShift, signedShift]
  generalize mask.smallPrimesUsed = used at nonzero small ⊢
  induction used with
  | zero => rfl
  | succ used previous =>
    rw [List.range_succ, List.foldl_append, List.foldl_cons, List.foldl_nil,
      previous (fun i below => nonzero i (by omega)) (fun i below => small i (by omega)),
      Finset.sum_range_succ, BitVec.ofInt_add, BitVec.ofInt_mul,
      rootOf_eq (nonzero used (by omega)) (small used (by omega))]
    congr 2
    rw [BitVec.ofInt_natCast, BitVec.ofNat_toNat, BitVec.setWidth_eq]

end Shift

/-! ## A whole vector of roots -/

def kernelPrimes (primes : List (BitVec 32)) (inactive : Nat → Bool) (i : Nat) : Int :=
  kernelPrime (primes.getD i 0) (inactive i)

def offsetHits (primes : List (BitVec 32)) (offsets : Nat → Int) (x : Int) : Nat :=
  ∑ i ∈ Finset.range primes.length,
    if ((primes.getD i 0).toNat : Int) ∣ x - offsets i then (primes.getD i 0).toNat.log2 else 0

section Vector

variable {primes : List (BitVec 32)} {inactive : Nat → Bool} {offsets : Nat → Int}

theorem getD_mem {i : Nat} (inside : i < primes.length) : primes.getD i 0 ∈ primes := by
  rw [List.getD_eq_getElem _ _ inside]
  exact List.getElem_mem inside

theorem abs_kernelPrimes (i : Nat) :
    |kernelPrimes primes inactive i| = (primes.getD i 0).toNat := by
  rw [kernelPrimes, kernelPrime]
  split
  next => rw [abs_neg, Nat.abs_cast]
  next => rw [Nat.abs_cast]

theorem MaskPrimes.kernelPrimes_ne_zero (mask : MaskPrimes primes) (inactive : Nat → Bool)
    {i : Nat} (inside : i < primes.length) : kernelPrimes primes inactive i ≠ 0 := by
  rw [← abs_pos, abs_kernelPrimes]
  exact Int.natCast_pos.mpr (mask.prime _ (getD_mem inside)).pos

theorem sum_map_eq_sum_range (f : BitVec 32 → Nat) :
    (primes.map f).sum = ∑ i ∈ Finset.range primes.length, f (primes.getD i 0) := by
  induction primes with
  | nil => rfl
  | cons p primes later =>
    rw [List.map_cons, List.sum_cons, later, List.length_cons, Finset.sum_range_succ']
    exact Nat.add_comm _ _

theorem sum_le_prod {numbers : List Nat} (large : ∀ n ∈ numbers, 2 ≤ n) :
    numbers.sum ≤ numbers.prod := by
  induction numbers with
  | nil => exact Nat.zero_le _
  | cons n numbers later =>
    have below := later fun m member => large m (List.mem_cons_of_mem n member)
    have two := large n List.mem_cons_self
    rw [List.sum_cons, List.prod_cons]
    rcases numbers with _ | ⟨m, numbers⟩
    · simp
    · have wide : 2 ≤ (m :: numbers).prod := by
        have first := large m (List.mem_cons_of_mem n List.mem_cons_self)
        have positive : 0 < numbers.prod := List.prod_pos fun k member => by
          have later := large k (List.mem_cons_of_mem n (List.mem_cons_of_mem m member))
          omega
        rw [List.prod_cons]
        exact first.trans (Nat.le_mul_of_pos_right m positive)
      calc n + (m :: numbers).sum ≤ n + (m :: numbers).prod := Nat.add_le_add_left below n
        _ ≤ n * (m :: numbers).prod := Nat.add_le_mul two wide

theorem getD_crtBaseElements {i : Nat} (inside : i < primes.length) :
    (maskData primes).crtBaseElements.getD i 0 =
      crtBaseElement (period primes) (primes.getD i 0) := by
  rw [maskData, List.getD_eq_getElem _ _ (by rwa [List.length_map]), List.getElem_map,
    List.getD_eq_getElem _ _ inside]

theorem MaskPrimes.signedShift_bounds (mask : MaskPrimes primes) (inactive : Nat → Bool)
    (offsets : Nat → Int) :
    |signedShift (maskData primes) offsets (kernelPrimes primes inactive)| < 2 ^ 32 := by
  have bound := mask.period_lt
  have total : ∑ i ∈ Finset.range primes.length, (primes.getD i 0).toNat ≤ period primes := by
    rw [← sum_map_eq_sum_range BitVec.toNat]
    refine sum_le_prod fun n member => ?_
    rcases List.mem_map.mp member with ⟨p, inside, rfl⟩
    exact (mask.prime p inside).two_le
  have each : ∀ i ∈ Finset.range primes.length,
      |((maskData primes).crtBaseElements.getD i 0).toNat *
        signedRoot (offsets i) (kernelPrimes primes inactive i)| ≤
          2 ^ 15 * ((primes.getD i 0).toNat : Int) := by
    intro i member
    have inside := Finset.mem_range.mp member
    have base := mask.crtBaseElement_le (primes.getD i 0)
    have root := signedRoot_bounds (mask.kernelPrimes_ne_zero inactive inside)
      (offsets i)
    rw [abs_kernelPrimes] at root
    rw [getD_crtBaseElements inside, abs_mul, Nat.abs_cast]
    calc ((crtBaseElement (period primes) (primes.getD i 0)).toNat : Int) *
          |signedRoot (offsets i) (kernelPrimes primes inactive i)|
        ≤ 2 ^ 14 * (2 * (primes.getD i 0).toNat) :=
          mul_le_mul (by omega) (by rw [abs_le]; omega) (abs_nonneg _) (by norm_num)
      _ = 2 ^ 15 * (primes.getD i 0).toNat := by ring
  calc |signedShift (maskData primes) offsets (kernelPrimes primes inactive)|
      ≤ ∑ i ∈ Finset.range primes.length, 2 ^ 15 * ((primes.getD i 0).toNat : Int) :=
        (Finset.abs_sum_le_sum_abs _ _).trans (Finset.sum_le_sum each)
    _ = 2 ^ 15 * ((∑ i ∈ Finset.range primes.length, (primes.getD i 0).toNat : Nat) : Int) := by
        rw [← Finset.mul_sum, Nat.cast_sum]
    _ < 2 ^ 32 := by omega

theorem MaskPrimes.dvd_signedShift (mask : MaskPrimes primes) (inactive : Nat → Bool)
    (offsets : Nat → Int) {i : Nat} (inside : i < primes.length) :
    ((primes.getD i 0).toNat : Int) ∣
      signedShift (maskData primes) offsets (kernelPrimes primes inactive) - offsets i := by
  rw [← ZMod.intCast_eq_intCast_iff_dvd_sub, signedShift, Int.cast_sum]
  have own : ((signedRoot (offsets i) (kernelPrimes primes inactive i) : Int) :
      ZMod (primes.getD i 0).toNat) = (offsets i : Int) := by
    rw [eq_comm, ZMod.intCast_eq_intCast_iff_dvd_sub]
    have signed := dvd_signedRoot (offsets i) (kernelPrimes primes inactive i)
    rwa [← abs_dvd, abs_kernelPrimes] at signed
  have single : ∀ j ∈ Finset.range primes.length,
      (((((maskData primes).crtBaseElements.getD j 0).toNat : Int) *
        signedRoot (offsets j) (kernelPrimes primes inactive j) : Int) :
          ZMod (primes.getD i 0).toNat) =
        if j = i then ((offsets i : Int) : ZMod (primes.getD i 0).toNat) else 0 := by
    intro j member
    have below := Finset.mem_range.mp member
    rw [getD_crtBaseElements below, Int.cast_mul, Int.cast_natCast,
      mask.crtBaseElement_cast (getD_mem below) (getD_mem inside)]
    by_cases same : j = i
    · rw [same, if_pos rfl, if_pos rfl, one_mul, own]
    · have differ : primes.getD i 0 ≠ primes.getD j 0 := by
        rw [List.getD_eq_getElem _ _ inside, List.getD_eq_getElem _ _ below]
        exact fun equal => same (mask.nodup.getElem_inj_iff.mp equal).symm
      rw [if_neg differ, if_neg same, zero_mul]
  have whole := Finset.sum_congr rfl single
  rw [Finset.sum_ite_eq', if_pos (Finset.mem_range.mpr inside)] at whole
  exact whole.symm

theorem MaskPrimes.hits_sub_signedShift (mask : MaskPrimes primes) (inactive : Nat → Bool)
    (offsets : Nat → Int) (x : Int) :
    hits primes (x - signedShift (maskData primes) offsets (kernelPrimes primes inactive)) =
      offsetHits primes offsets x := by
  rw [hits, sum_map_eq_sum_range, offsetHits]
  refine Finset.sum_congr rfl fun i member => if_congr ?_ rfl rfl
  have own := mask.dvd_signedShift inactive offsets (Finset.mem_range.mp member)
  refine dvd_iff_dvd_of_dvd_sub ?_
  rw [sub_sub_sub_cancel_left, ← neg_sub]
  exact (dvd_neg.mpr own)

end Vector

/-! ## The blocks of a polynomial -/

section Blocks

variable {primes : List (BitVec 32)} {inactive : Nat → Bool} {offsets1 offsets2 : Nat → Int}

/-- In every block, whatever its size, the number of threads and the order of their stores,
byte `k` is what the primes with position `k` at one of their offsets add up to. -/
def Fills (primes : List (BitVec 32)) (mask : MaskData) (inactive : Nat → Bool)
    (offsets1 offsets2 : Nat → Int) (sieveStart : Int) : Prop :=
  ∀ sievingBlockSize blockDim block k : Nat, 4 ∣ sievingBlockSize → 0 < blockDim →
    k < sievingBlockSize → ∀ (order : List (Nat × Nat)) (entries : Nat → Nat),
      order.Perm (blockStores mask blockDim (sievingBlockSize / 4)
        (blockOffset mask sievingBlockSize
          (findMaskOffset mask sieveStart offsets1 (kernelPrimes primes inactive)) block)
        (blockOffset mask sievingBlockSize
          (findMaskOffset mask sieveStart offsets2 (kernelPrimes primes inactive)) block)) →
      byteAt (storeWords order entries) k =
        offsetHits primes offsets1 (sieveStart + block * sievingBlockSize + k) +
          offsetHits primes offsets2 (sieveStart + block * sievingBlockSize + k)

def wrapped (shift : Int) : Int := if 0 ≤ shift then shift else shift + 2 ^ 32

theorem MaskPrimes.rootShift_cases (mask : MaskPrimes primes) (inactive : Nat → Bool)
    (offsets : Nat → Int) :
    ((rootShift (maskData primes) offsets (kernelPrimes primes inactive)).toNat : Int) =
      wrapped (signedShift (maskData primes) offsets (kernelPrimes primes inactive)) := by
  rw [wrapped]
  have small : ∀ i < primes.length, |kernelPrimes primes inactive i| < 2 ^ 30 := by
    intro i inside
    have le := mask.le_period (getD_mem inside)
    have bound := mask.period_lt
    rw [abs_kernelPrimes]
    omega
  have bounds := abs_lt.mp (mask.signedShift_bounds inactive offsets)
  rw [rootShift_eq (maskData primes) (fun i inside => mask.kernelPrimes_ne_zero inactive inside)
    small]
  split
  next nonneg => rw [toNat_ofInt_nonneg nonneg bounds.2, Int.toNat_of_nonneg nonneg]
  next negative =>
      rw [toNat_ofInt_negative (by omega) bounds.1, Int.toNat_of_nonneg (by omega)]

theorem MaskPrimes.byteAt_eq (mask : MaskPrimes primes) (sieveStart : Int)
    {sievingBlockSize blockDim block k : Nat} (aligned : 4 ∣ sievingBlockSize)
    (threads : 0 < blockDim) (inside : k < sievingBlockSize) {order : List (Nat × Nat)}
    (permuted : order.Perm (blockStores (maskData primes) blockDim (sievingBlockSize / 4)
      (blockOffset (maskData primes) sievingBlockSize
        (findMaskOffset (maskData primes) sieveStart offsets1 (kernelPrimes primes inactive)) block)
      (blockOffset (maskData primes) sievingBlockSize
        (findMaskOffset (maskData primes) sieveStart offsets2 (kernelPrimes primes inactive))
          block))) (entries : Nat → Nat) :
    byteAt (storeWords order entries) k = hits primes (sieveStart + block * sievingBlockSize + k -
        (rootShift (maskData primes) offsets1 (kernelPrimes primes inactive)).toNat) +
      hits primes (sieveStart + block * sievingBlockSize + k -
        (rootShift (maskData primes) offsets2 (kernelPrimes primes inactive)).toNat) := by
  have shifted : ∀ offsets : Nat → Int, hits primes
      (4 * findMaskOffset (maskData primes) sieveStart offsets (kernelPrimes primes inactive) +
        block * sievingBlockSize + k : Nat) =
      hits primes (sieveStart + block * sievingBlockSize + k -
        (rootShift (maskData primes) offsets (kernelPrimes primes inactive)).toNat) := by
    intro offsets
    have placed := (findMaskOffset_spec (maskData primes) sieveStart offsets
      (kernelPrimes primes inactive) mask.period_odd).2
    refine hits_congr ?_
    rcases placed with ⟨turns, placed⟩
    change _ = (period primes : Int) * turns at placed
    refine ⟨turns, ?_⟩
    push_cast at placed ⊢
    linear_combination placed
  rw [byteAt_fill mask aligned threads
    (findMaskOffset_spec (maskData primes) sieveStart offsets1 _ mask.period_odd).1
    (findMaskOffset_spec (maskData primes) sieveStart offsets2 _ mask.period_odd).1
    permuted entries inside, shifted, shifted]

theorem MaskPrimes.fills_of_nonneg (mask : MaskPrimes primes) (sieveStart : Int)
    (first : 0 ≤ signedShift (maskData primes) offsets1 (kernelPrimes primes inactive))
    (second : 0 ≤ signedShift (maskData primes) offsets2 (kernelPrimes primes inactive)) :
    Fills primes (maskData primes) inactive offsets1 offsets2 sieveStart := by
  intro sievingBlockSize blockDim block k aligned threads inside order entries permuted
  have shift1 := mask.rootShift_cases inactive offsets1
  have shift2 := mask.rootShift_cases inactive offsets2
  rw [wrapped, if_pos first] at shift1
  rw [wrapped, if_pos second] at shift2
  rw [mask.byteAt_eq sieveStart aligned threads inside permuted entries, shift1, shift2,
    mask.hits_sub_signedShift, mask.hits_sub_signedShift]

end Blocks

/-- An inactive prime divides its offsets: the inverse of `a` modulo a factor of `a` is zero,
and with it both roots. -/
def InactiveAtZero (primes : List (BitVec 32)) (inactive : Nat → Bool) (offsets : Nat → Int) :
    Prop :=
  ∀ i < primes.length, inactive i = true → ((primes.getD i 0).toNat : Int) ∣ offsets i

private theorem signedShift_nonneg {primes : List (BitVec 32)} {inactive : Nat → Bool}
    {offsets : Nat → Int} (mask : MaskPrimes primes)
    (zero : InactiveAtZero primes inactive offsets) :
    0 ≤ signedShift (maskData primes) offsets (kernelPrimes primes inactive) := by
  refine Finset.sum_nonneg fun i member => ?_
  have inside : i < primes.length := Finset.mem_range.mp member
  refine mul_nonneg (Int.natCast_nonneg _) ?_
  rw [signedRoot]
  split
  next wrong =>
      rcases wrong with ⟨negative, remainder⟩
      have off : inactive i = true := by
        refine Decidable.byContradiction fun active => ?_
        rw [kernelPrimes, kernelPrime, if_neg active] at negative
        exact absurd negative (by omega)
      have divides := zero i inside off
      rw [← @abs_kernelPrimes primes inactive, abs_dvd] at divides
      exact absurd (Int.tmod_eq_zero_of_dvd divides) remainder.ne
  next => exact Int.emod_nonneg _ (mask.kernelPrimes_ne_zero inactive inside)

/-- Every block of a polynomial is filled with the sum over the mask primes. -/
theorem smallPrimeMask_fills {primes rest : List (BitVec 32)} {next : BitVec 32}
    (mask : MaskPrimes primes) (stops : 64 * 1024 ≤ 4 * period primes * next.toNat)
    (small : 4 * period primes * next.toNat < 2 ^ 32) {inactive : Nat → Bool}
    {offsets1 offsets2 : Nat → Int} (zero1 : InactiveAtZero primes inactive offsets1)
    (zero2 : InactiveAtZero primes inactive offsets2) (sieveStart : Int) :
    ∃ data, generateMask (primes ++ next :: rest) = some data ∧
      Fills primes data inactive offsets1 offsets2 sieveStart :=
  ⟨maskData primes, generateMask_eq mask stops small,
    mask.fills_of_nonneg sieveStart (signedShift_nonneg mask zero1)
      (signedShift_nonneg mask zero2)⟩

private theorem maskPrimes_thirteen : MaskPrimes [3, 5, 7, 11, 13] where
  prime := by
    intro p member
    fin_cases member
    · exact Nat.prime_three
    · exact Nat.prime_five
    · exact Nat.prime_seven
    · exact Nat.prime_eleven
    · exact (by norm_num : Nat.Prime 13)
  odd := by simp
  nodup := by decide
  fits := by decide +kernel

theorem smallPrimeMask_fills_thirteen :
    ∃ data, generateMask ([3, 5, 7, 11, 13] ++ 17 :: []) = some data ∧
      Fills [3, 5, 7, 11, 13] data (fun i => i == 0)
        (fun i => if i = 0 then -99 else -98) (fun i => if i = 0 then -99 else -97) (-100) :=
  smallPrimeMask_fills maskPrimes_thirteen (by decide +kernel) (by decide +kernel)
    (by intro i _ off; rw [beq_iff_eq] at off; subst off; decide +kernel)
    (by intro i _ off; rw [beq_iff_eq] at off; subst off; decide +kernel) (-100)

end SmallPrimeMask

end CudaMpqs
