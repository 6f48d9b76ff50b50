import Mathlib.FieldTheory.Finite.Basic
import CudaMpqs.Common.UInt512Small
import CudaMpqs.Sieve.KernelArithmetic

/-! # Inverses modulo a prime

The host inverts with Fermat's exponent, the device with the extended Euclidean
algorithm in unsigned words. -/

namespace CudaMpqs

/-! ## `modInv` of `prime_algorithms.cu` -/

def mulModU128 (a b m : Nat) : Nat := a * b % m

def powModLoop (modulus : Nat) : Nat → Nat → Nat → Nat → Nat
  | 0, _, _, res => res
  | turns + 1, exp, base, res =>
    if 0 < exp then
      powModLoop modulus turns (exp >>> 1) (mulModU128 base base modulus)
        (if exp % 2 = 1 then mulModU128 res base modulus else res)
    else res

def powMod (base exp modulus : Nat) : Nat :=
  powModLoop modulus 64 exp (base % modulus) 1

def modInv (a p : BitVec 32) : BitVec 32 :=
  BitVec.ofNat 32 (powMod a.toNat (p - 2).toNat p.toNat)

/-! ## `mod_inverse` of `math_utils.cuh` -/

/-- The loop of the extended Euclidean algorithm: the last remainder and its
coefficient. -/
def euclidLoop (m : BitVec 32) :
    Nat → BitVec 32 → BitVec 32 → BitVec 32 → BitVec 32 → BitVec 32 × BitVec 32
  | 0, r0, _, u0, _ => (r0, u0)
  | turns + 1, r0, r1, u0, u1 =>
    if r1 = 0 then (r0, u0)
    else
      let q := r0 / r1
      let rNext := r0 % r1
      let term := (q.setWidth 64 * u1.setWidth 64 % m.setWidth 64).setWidth 32
      let uNext := if u0 < term then u0 + m - term else u0 - term
      euclidLoop m turns r1 rNext u1 uNext

def modInverse (a : UInt512) (m : BitVec 32) : BitVec 32 :=
  let reached := euclidLoop m (m.toNat + 1) (a.modUInt32 m) m 1 0
  if reached.1 ≠ 1 then 0 else reached.2

/-! ## Fermat's exponent -/

section Fermat

variable {p : Nat}

theorem powModLoop_eq (turns : Nat) {exp base res : Nat} {baseValue resValue : ZMod p}
    (enough : exp < 2 ^ turns) (reduced : res < p) (baseCast : (base : ZMod p) = baseValue)
    (resCast : (res : ZMod p) = resValue) :
    powModLoop p turns exp base res < p ∧
      (powModLoop p turns exp base res : ZMod p) = resValue * baseValue ^ exp := by
  induction turns generalizing exp base res baseValue resValue with
  | zero =>
    have spent : exp = 0 := by omega
    rw [powModLoop, spent, pow_zero, mul_one]
    exact ⟨reduced, resCast⟩
  | succ turns next =>
    have positive : 0 < p := Nat.zero_lt_of_lt reduced
    have half : exp >>> 1 = exp / 2 := rfl
    have squared : (mulModU128 base base p : ZMod p) = baseValue * baseValue := by
      rw [mulModU128, ZMod.natCast_mod, Nat.cast_mul, baseCast]
    have raised : (mulModU128 res base p : ZMod p) = resValue * baseValue := by
      rw [mulModU128, ZMod.natCast_mod, Nat.cast_mul, resCast, baseCast]
    have halfBound : exp / 2 < 2 ^ turns := by
      rw [pow_succ] at enough
      omega
    rw [powModLoop, half]
    rcases Nat.eq_zero_or_pos exp with spent | more
    · rw [if_neg (by omega), spent, pow_zero, mul_one]
      exact ⟨reduced, resCast⟩
    · rw [if_pos more]
      rcases Nat.mod_two_eq_zero_or_one exp with even | odd
      · have exponent : exp = exp / 2 + exp / 2 := by omega
        have powers : baseValue ^ exp = (baseValue * baseValue) ^ (exp / 2) := by
          rw [mul_pow, ← pow_add, ← exponent]
        rw [if_neg (by omega), powers]
        exact next halfBound reduced squared resCast
      · have exponent : exp = 1 + (exp / 2 + exp / 2) := by omega
        have powers : resValue * baseValue ^ exp =
            resValue * baseValue * (baseValue * baseValue) ^ (exp / 2) := by
          rw [mul_pow, ← pow_add, mul_assoc, ← pow_succ', Nat.add_comm, ← exponent]
        rw [if_pos odd, powers]
        exact next halfBound (Nat.mod_lt _ positive) squared raised

end Fermat

def Inverse (p x : BitVec 32) (value : ZMod p.toNat) : Prop :=
  ∃ inverse : ZMod p.toNat, Residue p x inverse ∧ inverse * value = 1

theorem Inverse.unique {p x y : BitVec 32} {value : ZMod p.toNat}
    (left : Inverse p x value) (right : Inverse p y value) : x = y := by
  rcases left with ⟨leftInverse, leftResidue, leftOne⟩
  rcases right with ⟨rightInverse, rightResidue, rightOne⟩
  have same : leftInverse = rightInverse := by
    calc leftInverse = leftInverse * (rightInverse * value) := by rw [rightOne, mul_one]
      _ = rightInverse * (leftInverse * value) := by ring
      _ = rightInverse := by rw [leftOne, mul_one]
  rw [same] at leftResidue
  have cast := leftResidue.cast.trans rightResidue.cast.symm
  rw [ZMod.natCast_eq_natCast_iff', Nat.mod_eq_of_lt leftResidue.lt,
    Nat.mod_eq_of_lt rightResidue.lt] at cast
  exact BitVec.toNat_inj.mp cast

theorem modInv_inverse {a p : BitVec 32} (prime : p.toNat.Prime)
    (coprime : ¬ p.toNat ∣ a.toNat) : Inverse p (modInv a p) a.toNat := by
  have two_le := prime.two_le
  have bound := p.isLt
  have exponent : (p - 2).toNat = p.toNat - 2 := BitVec.toNat_sub_of_le two_le
  have enough : (p - 2).toNat < 2 ^ 64 := by omega
  rcases powModLoop_eq 64 enough two_le (ZMod.natCast_mod a.toNat p.toNat) Nat.cast_one with
    ⟨lt, cast⟩
  have field : Fact p.toNat.Prime := ⟨prime⟩
  have unit : (a.toNat : ZMod p.toNat) ≠ 0 :=
    fun zero => coprime ((ZMod.natCast_eq_zero_iff _ _).mp zero)
  have word : (modInv a p).toNat =
      powModLoop p.toNat 64 (p - 2).toNat (a.toNat % p.toNat) 1 := by
    rw [modInv, powMod, BitVec.toNat_ofNat]
    exact Nat.mod_eq_of_lt (lt.trans bound)
  refine ⟨(a.toNat : ZMod p.toNat) ^ (p.toNat - 2), ⟨?_, ?_⟩, ?_⟩
  · rw [word]
    exact lt
  · rw [word, cast, one_mul, exponent]
  · have exponents : p.toNat - 2 + 1 = p.toNat - 1 := by omega
    rw [← pow_succ, exponents]
    exact ZMod.pow_card_sub_one_eq_one unit

/-! ## The extended Euclidean algorithm -/

structure EuclidState (m : BitVec 32) (value : ZMod m.toNat) (r0 r1 u0 u1 : BitVec 32) :
    Prop where
  coprime : Nat.Coprime r0.toNat r1.toNat
  left : ∃ coefficient, Residue m u0 coefficient ∧ coefficient * value = r0.toNat
  right : ∃ coefficient, Residue m u1 coefficient ∧ coefficient * value = r1.toNat

theorem Residue.subWrap {m u0 term : BitVec 32} {left right : ZMod m.toNat}
    (u0Residue : Residue m u0 left) (termResidue : Residue m term right) :
    Residue m (if u0 < term then u0 + m - term else u0 - term) (left - right) := by
  have u0Bound := u0Residue.lt
  have termBound := termResidue.lt
  have modulusBound := m.isLt
  rcases Nat.lt_or_ge u0.toNat term.toNat with below | above
  · have difference : (u0 + m - term).toNat = u0.toNat + m.toNat - term.toNat := by
      rw [BitVec.toNat_sub, BitVec.toNat_add]
      omega
    rw [if_pos (BitVec.lt_def.mpr below)]
    constructor
    · omega
    · rw [difference, Nat.cast_sub (by omega), Nat.cast_add, ZMod.natCast_self, add_zero,
        u0Residue.cast, termResidue.cast]
  · have difference : (u0 - term).toNat = u0.toNat - term.toNat :=
      BitVec.toNat_sub_of_le above
    rw [if_neg (fun below => absurd (BitVec.lt_def.mp below) (Nat.not_lt.mpr above))]
    constructor
    · omega
    · rw [difference, Nat.cast_sub above, u0Residue.cast, termResidue.cast]

theorem EuclidState.step {m r0 r1 u0 u1 : BitVec 32} {value : ZMod m.toNat}
    (state : EuclidState m value r0 r1 u0 u1) :
    let term := ((r0 / r1).setWidth 64 * u1.setWidth 64 % m.setWidth 64).setWidth 32
    EuclidState m value r1 (r0 % r1) u1
      (if u0 < term then u0 + m - term else u0 - term) := by
  intro term
  rcases state with ⟨coprime, ⟨leftCoefficient, leftResidue, leftMultiple⟩,
    ⟨rightCoefficient, rightResidue, rightMultiple⟩⟩
  have positive : 0 < m.toNat := Nat.zero_lt_of_lt leftResidue.lt
  have termResidue := residue_mul positive (r0 / r1) u1
  rw [rightResidue.cast] at termResidue
  constructor
  · rw [BitVec.toNat_umod, Nat.coprime_comm, Nat.Coprime, ← Nat.gcd_rec, Nat.gcd_comm]
    exact coprime
  · exact ⟨rightCoefficient, rightResidue, rightMultiple⟩
  · refine ⟨_, leftResidue.subWrap termResidue, ?_⟩
    have division : ((r0.toNat % r1.toNat + r1.toNat * (r0.toNat / r1.toNat) : Nat) :
        ZMod m.toNat) = r0.toNat := by
      rw [Nat.mod_add_div]
    rw [Nat.cast_add, Nat.cast_mul] at division
    rw [BitVec.toNat_umod, BitVec.toNat_udiv, sub_mul, leftMultiple, mul_assoc,
      rightMultiple, ← division]
    ring

private theorem euclidLoop_eq {m : BitVec 32} {value : ZMod m.toNat} (turns : Nat)
    {r0 r1 u0 u1 : BitVec 32} (enough : r1.toNat < turns)
    (state : EuclidState m value r0 r1 u0 u1) :
    (euclidLoop m turns r0 r1 u0 u1).1 = 1 ∧
      Inverse m (euclidLoop m turns r0 r1 u0 u1).2 value := by
  induction turns generalizing r0 r1 u0 u1 with
  | zero => exact absurd enough (Nat.not_lt_zero _)
  | succ turns next =>
    rw [euclidLoop]
    split
    next zero =>
        have one : r0.toNat = 1 := by
          have coprime := state.coprime
          rw [zero] at coprime
          exact (Nat.coprime_zero_right _).mp coprime
        rcases state.left with ⟨coefficient, residue, multiple⟩
        rw [one, Nat.cast_one] at multiple
        exact ⟨BitVec.toNat_inj.mp one, coefficient, residue, multiple⟩
    next nonzero =>
        have positive : 0 < r1.toNat := by
          apply Nat.pos_of_ne_zero
          intro zero
          exact nonzero (BitVec.toNat_inj.mp zero)
        have falls : (r0 % r1).toNat < r1.toNat := by
          rw [BitVec.toNat_umod]
          exact Nat.mod_lt _ positive
        exact next (by omega) state.step

theorem modInverse_inverse {a : UInt512} {p : BitVec 32} (prime : p.toNat.Prime)
    (coprime : ¬ p.toNat ∣ a.toNat) : Inverse p (modInverse a p) a.toNat := by
  have two_le := prime.two_le
  have nonzero : p ≠ 0 := by
    intro zero
    rw [zero] at two_le
    exact absurd two_le (by decide)
  have reduced := a.toNat_modUInt32 nonzero
  have start : EuclidState p (a.toNat : ZMod p.toNat) (a.modUInt32 p) p 1 0 := by
    constructor
    · rw [reduced, Nat.Coprime, ← Nat.gcd_rec]
      exact (Nat.Prime.coprime_iff_not_dvd prime).mpr coprime
    · refine ⟨1, ⟨two_le, Nat.cast_one⟩, ?_⟩
      rw [one_mul, reduced, ZMod.natCast_mod]
    · refine ⟨0, residue_zero prime.pos, ?_⟩
      rw [zero_mul, ZMod.natCast_self]
  rcases euclidLoop_eq (p.toNat + 1) (Nat.lt_succ_self _) start with ⟨one, inverse⟩
  rw [modInverse]
  simp only [one, ne_eq, not_true_eq_false, if_false]
  exact inverse

end CudaMpqs
