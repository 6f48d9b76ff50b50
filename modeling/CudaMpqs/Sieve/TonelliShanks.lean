import Mathlib.NumberTheory.LegendreSymbol.Basic
import CudaMpqs.Foundation.RootDescent
import CudaMpqs.Sieve.ModularInverse

/-! # Tonelli-Shanks

One loop for both widths: the 32-bit function multiplies in `uint64_t`, the 64-bit
function in 128 bits. `none` is a loop that is still running when its turns are spent. -/

namespace CudaMpqs

def mulModU64 (x y p : Nat) : Nat := x * y % 2 ^ 64 % p

namespace TonelliShanks

def factorTwos : Nat → Nat → Nat → Option (Nat × Nat)
  | 0, _, _ => none
  | turns + 1, Q, S =>
    if Q &&& 1 = 0 then factorTwos turns (Q >>> 1) (S + 1) else some (Q, S)

def findNonResidue (p : Nat) : Nat → Nat → Option Nat
  | 0, _ => none
  | turns + 1, z =>
    if powMod z ((p - 1) / 2) p ≠ p - 1 then findNonResidue p turns (z + 1) else some z

section Loops

variable (mul : Nat → Nat → Nat → Nat) (p : Nat)

def orderLoop : Nat → Nat → Nat → Nat
  | 0, i, _ => i
  | turns + 1, i, temp =>
    let next := mul temp temp p
    if next = 1 then i else orderLoop turns (i + 1) next

def squareTimes : Nat → Nat → Nat
  | 0, b => b
  | turns + 1, b => squareTimes turns (mul b b p)

def mainLoop : Nat → Nat → Nat → Nat → Nat → Option Nat
  | 0, _, _, _, _ => none
  | turns + 1, M, c, t, R =>
    if t = 0 then some 0
    else if t = 1 then some R
    else
      let i := orderLoop mul p (M - 1) 1 t
      if i = M then some 0
      else
        let b := squareTimes mul p (M - i - 1) c
        let square := mul b b p
        mainLoop turns i square (mul t square p) (mul R b p)

def root (n : Nat) : Option Nat :=
  if n = 0 then some 0
  else if powMod n ((p - 1) / 2) p ≠ 1 then some 0
  else
    (factorTwos p (p - 1) 0).bind fun (Q, S) =>
      (findNonResidue p p 2).bind fun z =>
        mainLoop mul p (S + 1) S (powMod z Q p) (powMod n Q p) (powMod n ((Q + 1) / 2) p)

end Loops

/-! ## The loops, on values modulo `p` -/

section Specs

variable {p : Nat}

structure Stands (p x : Nat) (value : ZMod p) : Prop where
  lt : x < p
  cast : (x : ZMod p) = value

theorem Stands.eq_one_iff {x : Nat} {value : ZMod p} (stands : Stands p x value)
    (one : 1 < p) : x = 1 ↔ value = 1 := by
  rw [← stands.cast, ← Nat.cast_one (R := ZMod p), ZMod.natCast_eq_natCast_iff',
    Nat.mod_eq_of_lt stands.lt, Nat.mod_eq_of_lt one]

theorem Stands.eq_zero_iff {x : Nat} {value : ZMod p} (stands : Stands p x value) :
    x = 0 ↔ value = 0 := by
  rw [← stands.cast, ZMod.natCast_eq_zero_iff]
  exact ⟨fun zero => zero ▸ dvd_zero p, fun divides => Nat.eq_zero_of_dvd_of_lt divides stands.lt⟩

theorem Stands.eq_pred_iff {x : Nat} {value : ZMod p} (stands : Stands p x value)
    (one : 1 < p) : x = p - 1 ↔ value = -1 := by
  have minusOne : ((p - 1 : Nat) : ZMod p) = -1 := by
    rw [Nat.cast_sub one.le, ZMod.natCast_self, Nat.cast_one, zero_sub]
  rw [← stands.cast, ← minusOne, ZMod.natCast_eq_natCast_iff', Nat.mod_eq_of_lt stands.lt,
    Nat.mod_eq_of_lt (Nat.sub_lt (by omega) one_pos)]

theorem stands_powMod (one : 1 < p) (base : Nat) {exp : Nat} (fits : exp < 2 ^ 64) :
    Stands p (powMod base exp p) ((base : ZMod p) ^ exp) := by
  rcases powModLoop_eq 64 fits one (ZMod.natCast_mod base p) Nat.cast_one with ⟨lt, cast⟩
  exact ⟨lt, by rw [powMod, cast, one_mul]⟩

theorem factorTwos_eq (turns : Nat) {Q : Nat} (S : Nat) (positive : 0 < Q)
    (enough : Q < 2 ^ turns) :
    ∃ rest twos, factorTwos (turns + 1) Q S = some (rest, S + twos) ∧
      Q = 2 ^ twos * rest ∧ rest % 2 = 1 := by
  induction turns generalizing Q S with
  | zero => omega
  | succ turns next =>
    rw [factorTwos, Nat.and_one_is_mod]
    rcases Nat.mod_two_eq_zero_or_one Q with even | odd
    · have below : Q >>> 1 < 2 ^ turns := by
        rw [Nat.shiftRight_one]
        rw [pow_succ] at enough
        omega
      rcases next (S + 1) (by rw [Nat.shiftRight_one]; omega) below with
        ⟨rest, twos, reached, split, oddRest⟩
      refine ⟨rest, twos + 1, ?_, ?_, oddRest⟩
      · rw [if_pos even, reached, Nat.add_assoc, Nat.add_comm 1]
      · rw [pow_succ, Nat.mul_right_comm, ← split, Nat.shiftRight_one]
        omega
    · exact ⟨Q, 0, by rw [if_neg (by omega)]; rfl, by rw [pow_zero, one_mul], odd⟩

theorem findNonResidue_eq {w : Nat} (turns z : Nat) (above : z ≤ w) (reached : w < z + turns)
    (test : powMod w ((p - 1) / 2) p = p - 1) :
    ∃ found, findNonResidue p turns z = some found ∧ powMod found ((p - 1) / 2) p = p - 1 := by
  induction turns generalizing z with
  | zero => omega
  | succ turns next =>
    rw [findNonResidue]
    by_cases stop : powMod z ((p - 1) / 2) p = p - 1
    · exact ⟨z, if_neg (not_not.mpr stop), stop⟩
    · have later : z ≠ w := fun same => stop (same ▸ test)
      rw [if_pos stop]
      exact next (z + 1) (by omega) (by omega)

variable {mul : Nat → Nat → Nat → Nat}

def Multiplies (mul : Nat → Nat → Nat → Nat) (p : Nat) : Prop :=
  ∀ x y, x < p → y < p → mul x y p = x * y % p

theorem Multiplies.stands (multiplies : Multiplies mul p) {x y : Nat} {left right : ZMod p}
    (standsX : Stands p x left) (standsY : Stands p y right) :
    Stands p (mul x y p) (left * right) := by
  rw [multiplies x y standsX.lt standsY.lt]
  refine ⟨Nat.mod_lt _ (Nat.zero_lt_of_lt standsX.lt), ?_⟩
  rw [ZMod.natCast_mod, Nat.cast_mul, standsX.cast, standsY.cast]

theorem squareTimes_stands (multiplies : Multiplies mul p) (turns : Nat) {b : Nat}
    {value : ZMod p} (stands : Stands p b value) :
    Stands p (squareTimes mul p turns b) (value ^ 2 ^ turns) := by
  induction turns generalizing b value with
  | zero => rwa [squareTimes, pow_zero, pow_one]
  | succ turns next =>
    rw [squareTimes, pow_succ', pow_mul, pow_two]
    exact next (multiplies.stands stands stands)

/-- The search stops at the first exponent that reaches one, or at `M`. -/
theorem orderLoop_spec (multiplies : Multiplies mul p) (one : 1 < p) {t : ZMod p}
    (turns : Nat) {i temp : Nat} (positive : 0 < i)
    (stands : Stands p temp (t ^ 2 ^ (i - 1))) (before : ∀ j < i, t ^ 2 ^ j ≠ 1) :
    let stop := orderLoop mul p turns i temp
    0 < stop ∧ stop ≤ i + turns ∧ (stop < i + turns → t ^ 2 ^ stop = 1) ∧
      ∀ j < stop, t ^ 2 ^ j ≠ 1 := by
  induction turns generalizing i temp with
  | zero => exact ⟨positive, le_rfl, fun below => absurd below (lt_irrefl _), before⟩
  | succ turns next =>
    have squared : Stands p (mul temp temp p) (t ^ 2 ^ i) := by
      have product := multiplies.stands stands stands
      rwa [← pow_add, ← Nat.two_mul, ← pow_succ', Nat.sub_add_cancel positive] at product
    dsimp only
    rw [orderLoop]
    by_cases stop : mul temp temp p = 1
    · rw [if_pos stop]
      exact ⟨positive, by omega, fun _ => (squared.eq_one_iff one).mp stop, before⟩
    · have beforeNext : ∀ j < i + 1, t ^ 2 ^ j ≠ 1 := by
        intro j below
        rcases Nat.lt_succ_iff_lt_or_eq.mp below with earlier | same
        · exact before j earlier
        · rw [same]
          exact fun reached => stop ((squared.eq_one_iff one).mpr reached)
      have stops : i + (turns + 1) = i + 1 + turns := by omega
      rw [if_neg stop, stops]
      exact next (Nat.succ_pos i) squared beforeNext

/-- Every turn lowers `M`, and the last one stops at a square root. -/
theorem mainLoop_eq [Fact p.Prime] (multiplies : Multiplies mul p) {a : ZMod p} (turns : Nat)
    {M c t R : Nat} {cValue tValue rValue : ZMod p} (enough : M ≤ turns)
    (standsC : Stands p c cValue) (standsT : Stands p t tValue) (standsR : Stands p R rValue)
    (descent : RootDescent.Descent a M cValue tValue rValue) :
    ∃ r, mainLoop mul p turns M c t R = some r ∧ r < p ∧ (r : ZMod p) ^ 2 = a := by
  have one : 1 < p := (Fact.out : p.Prime).one_lt
  induction turns generalizing M c t R cValue tValue rValue with
  | zero => exact absurd descent.positive (by omega)
  | succ turns next =>
    have nonzero : t ≠ 0 := mt standsT.eq_zero_iff.mp descent.ne_zero
    rw [mainLoop, if_neg nonzero]
    by_cases finished : t = 1
    · refine ⟨R, if_pos finished, standsR.lt, ?_⟩
      rw [standsR.cast, descent.square, (standsT.eq_one_iff one).mp finished, mul_one]
    · have start : Stands p t (tValue ^ 2 ^ (1 - 1)) := by rwa [Nat.sub_self, pow_zero, pow_one]
      have unfinished : ∀ j < 1, tValue ^ 2 ^ j ≠ 1 := by
        intro j below
        rw [Nat.lt_one_iff.mp below, pow_zero, pow_one]
        exact mt (standsT.eq_one_iff one).mpr finished
      rcases orderLoop_spec multiplies one (M - 1) one_pos start unfinished with
        ⟨positive, le, order, least⟩
      generalize orderLoop mul p (M - 1) 1 t = i at positive le order least ⊢
      have total : 1 + (M - 1) = M := Nat.add_sub_cancel' descent.positive
      rw [total] at le order
      have below : i < M := by
        refine lt_of_le_of_ne le fun same => ?_
        exact least (M - 1) (by have := descent.positive; omega) descent.ones
      have standsB := squareTimes_stands multiplies (M - i - 1) standsC
      have standsSquare := multiplies.stands standsB standsB
      rw [← pow_two] at standsSquare
      rw [if_neg finished, if_neg below.ne]
      exact next (by omega) standsSquare (multiplies.stands standsT standsSquare)
        (multiplies.stands standsR standsB)
        (descent.step positive below (order below) (least (i - 1) (by omega)))

/-! ## The whole function -/

/-- `r` is a reduced root of `n`, or `0` if there is none. -/
def IsRoot (p n r : Nat) : Prop :=
  r < p ∧ (IsSquare (n : ZMod p) → (r : ZMod p) ^ 2 = n) ∧ (¬ IsSquare (n : ZMod p) → r = 0)

theorem root_two (mul : Nat → Nat → Nat → Nat) (n : Nat) :
    ∃ r, root mul 2 n = some r ∧ IsRoot 2 n r := by
  have squares : ∀ x : ZMod 2, x ^ 2 = x := by decide
  have stands := stands_powMod one_lt_two n (by decide : 1 < 2 ^ 64)
  have criterion : powMod n ((2 - 1) / 2) 2 = 1 := rfl
  have factored : factorTwos 2 (2 - 1) 0 = some (1, 0) := by decide
  have found : findNonResidue 2 2 2 = some 2 := by decide +kernel
  have every : IsSquare (n : ZMod 2) := ⟨n, by rw [← pow_two, squares]⟩
  rw [pow_one] at stands
  have reached : ∃ r, root mul 2 n = some r ∧ r < 2 ∧ (r : ZMod 2) = n := by
    rw [root, criterion, factored, Option.bind_some]
    dsimp only
    rw [found, Option.bind_some]
    by_cases zero : n = 0
    · exact ⟨0, if_pos zero, two_pos, by rw [zero]⟩
    rw [if_neg zero, if_neg (not_not.mpr rfl), mainLoop]
    by_cases even : powMod n 1 2 = 0
    · exact ⟨0, if_pos even, two_pos, by rw [← stands.cast, even]⟩
    · have odd : powMod n 1 2 = 1 := by
        have lt := stands.lt
        omega
      exact ⟨powMod n 1 2, by rw [if_neg even, if_pos odd], stands.lt, stands.cast⟩
  rcases reached with ⟨r, returned, lt, cast⟩
  exact ⟨r, returned, lt, fun _ => by rw [squares, cast], fun none => absurd every none⟩

section Odd

variable [Fact p.Prime]

private theorem exists_nonResidue (odd : p ≠ 2) (fits : p < 2 ^ 64) :
    ∃ w, 2 ≤ w ∧ w < p ∧ powMod w (p / 2) p = p - 1 := by
  have one : 1 < p := (Fact.out : p.Prime).one_lt
  have characteristic : ringChar (ZMod p) ≠ 2 := by rwa [ZMod.ringChar_zmod_n]
  rcases FiniteField.exists_nonsquare characteristic with ⟨x, nonSquare⟩
  have nonzero : x ≠ 0 := fun zero => nonSquare (zero ▸ IsSquare.zero)
  have power : x ^ (p / 2) = -1 :=
    (ZMod.pow_div_two_eq_neg_one_or_one p nonzero).resolve_left
      (mt (ZMod.euler_criterion p nonzero).mpr nonSquare)
  have stands := stands_powMod one x.val (by omega : p / 2 < 2 ^ 64)
  rw [ZMod.natCast_val, ZMod.cast_id] at stands
  refine ⟨x.val, ?_, x.val_lt, (stands.eq_pred_iff one).mpr power⟩
  have notZero : x.val ≠ 0 := mt (ZMod.val_eq_zero x).mp nonzero
  have notOne : x.val ≠ 1 := fun same => nonSquare ((ZMod.val_eq_one one x).mp same ▸ IsSquare.one)
  omega

theorem root_odd (multiplies : Multiplies mul p) (fits : p < 2 ^ 64) (odd : p ≠ 2) (n : Nat) :
    ∃ r, root mul p n = some r ∧ IsRoot p n r := by
  have prime : p.Prime := Fact.out
  have one := prime.one_lt
  have parity : p % 2 = 1 := prime.eq_two_or_odd.resolve_left odd
  have half : (p - 1) / 2 = p / 2 := by omega
  have euler := stands_powMod one n (by omega : p / 2 < 2 ^ 64)
  rw [root, half]
  by_cases zero : n = 0
  · refine ⟨0, if_pos zero, prime.pos, fun _ => ?_, fun _ => rfl⟩
    rw [zero, Nat.cast_zero, zero_pow two_ne_zero]
  rw [if_neg zero]
  by_cases residue : powMod n (p / 2) p = 1
  · rcases factorTwos_eq (p - 1) 0 (by omega : 0 < p - 1) Nat.lt_two_pow_self with
      ⟨rest, twos, factored, split, oddRest⟩
    rcases exists_nonResidue odd fits with ⟨w, above, below, test⟩
    rcases findNonResidue_eq p 2 above (by omega) (half ▸ test) with ⟨z, found, nonResidue⟩
    rw [half] at nonResidue
    rw [Nat.sub_add_cancel one.le, Nat.zero_add] at factored
    have positive : 0 < twos := by
      refine Nat.pos_of_ne_zero fun none => ?_
      rw [none, pow_zero, one_mul] at split
      omega
    have halves : p / 2 = 2 ^ (twos - 1) * rest := by
      rw [← mul_pow_sub_one positive.ne' 2, Nat.mul_assoc] at split
      omega
    have small : rest ≤ p - 1 := by
      rw [split]
      exact Nat.le_mul_of_pos_left rest (Nat.two_pow_pos twos)
    have descent := RootDescent.Descent.start positive oddRest halves
      (((stands_powMod one z (by omega : p / 2 < 2 ^ 64)).eq_pred_iff one).mp nonResidue)
      ((euler.eq_one_iff one).mp residue)
    rcases mainLoop_eq multiplies (twos + 1) (Nat.le_succ twos) (stands_powMod one z (by omega))
      (stands_powMod one n (by omega)) (stands_powMod one n (by omega)) descent with
      ⟨r, returned, lt, square⟩
    refine ⟨r, ?_, lt, fun _ => square, fun none => absurd ⟨r, ?_⟩ none⟩
    · rw [if_neg (not_not.mpr residue), factored, Option.bind_some]
      dsimp only
      rw [found, Option.bind_some, returned]
    · rw [← pow_two, square]
  · refine ⟨0, if_pos residue, prime.pos, fun square => ?_, fun _ => rfl⟩
    have power : (n : ZMod p) ^ (p / 2) ≠ 1 := mt (euler.eq_one_iff one).mpr residue
    by_cases divides : (n : ZMod p) = 0
    · rw [divides, Nat.cast_zero, zero_pow two_ne_zero]
    · exact absurd ((ZMod.euler_criterion p divides).mp square) power

end Odd

end Specs

end TonelliShanks

def tonelliShanks (n p : BitVec 32) : Option (BitVec 32) :=
  (TonelliShanks.root mulModU64 p.toNat n.toNat).map (BitVec.ofNat 32)

def tonelliShanksU64 (n p : BitVec 64) : Option (BitVec 64) :=
  (TonelliShanks.root mulModU128 p.toNat n.toNat).map (BitVec.ofNat 64)

example : tonelliShanks 2 7 = some 4 ∧ tonelliShanks 3 7 = some 0 ∧
    tonelliShanks 13 17 = some 8 ∧ tonelliShanksU64 1 2 = some 1 := by decide +kernel

namespace TonelliShanks

theorem multiplies_u64 {p : Nat} (fits : p < 2 ^ 32) : Multiplies mulModU64 p := by
  intro x y xBelow yBelow
  have product : x * y < 2 ^ 64 := by
    calc x * y ≤ 2 ^ 32 * y := Nat.mul_le_mul_right y (by omega)
      _ < 2 ^ 32 * 2 ^ 32 := Nat.mul_lt_mul_of_pos_left (by omega) (by decide)
  rw [mulModU64, Nat.mod_eq_of_lt product]

theorem multiplies_u128 (p : Nat) : Multiplies mulModU128 p := fun _ _ _ _ => rfl

theorem root_eq {p : Nat} {mul : Nat → Nat → Nat → Nat} (prime : p.Prime)
    (multiplies : Multiplies mul p) (fits : p < 2 ^ 64) (n : Nat) :
    ∃ r, root mul p n = some r ∧ IsRoot p n r := by
  by_cases even : p = 2
  · subst even
    exact root_two mul n
  · have field : Fact p.Prime := ⟨prime⟩
    exact root_odd multiplies fits even n

end TonelliShanks

open TonelliShanks in
/-- The call returns for every argument: a root where there is one, `0` where there is none. -/
theorem tonelliShanks_eq {p : BitVec 32} (prime : p.toNat.Prime) (n : BitVec 32) :
    ∃ r, tonelliShanks n p = some r ∧ IsRoot p.toNat n.toNat r.toNat := by
  have fits := p.isLt
  rcases root_eq prime (multiplies_u64 fits) (by omega) n.toNat with ⟨r, returned, isRoot⟩
  refine ⟨BitVec.ofNat 32 r, by rw [tonelliShanks, returned, Option.map_some], ?_⟩
  rwa [BitVec.toNat_ofNat, Nat.mod_eq_of_lt (isRoot.1.trans fits)]

open TonelliShanks in
theorem tonelliShanksU64_eq {p : BitVec 64} (prime : p.toNat.Prime) (n : BitVec 64) :
    ∃ r, tonelliShanksU64 n p = some r ∧ IsRoot p.toNat n.toNat r.toNat := by
  rcases root_eq prime (multiplies_u128 p.toNat) p.isLt n.toNat with ⟨r, returned, isRoot⟩
  refine ⟨BitVec.ofNat 64 r, by rw [tonelliShanksU64, returned, Option.map_some], ?_⟩
  rwa [BitVec.toNat_ofNat, Nat.mod_eq_of_lt (isRoot.1.trans p.isLt)]

end CudaMpqs
