import CudaMpqs.Common.UInt512Modular
import CudaMpqs.Foundation.ModularEuclid
import CudaMpqs.Sieve.ModularInverse

/-! # Modular inverses of `uint512`

`mod_inverse` of `math_utils.cuh` for a modulus of 512 bits, and how it agrees with the one
for a modulus of 32 bits. -/

namespace CudaMpqs.UInt512

open ModularEuclid

/-- `u0 - term` modulo `m`. The sum with `m` may wrap, and the difference wraps back. -/
def subMod (m u0 term : UInt512) : UInt512 :=
  if u0.less term then (u0.add m).sub term else u0.sub term

/-- The loop with the last remainder and its coefficient; `none` where the turns are spent. -/
def euclidLoop (m : UInt512) :
    Nat → UInt512 → UInt512 → UInt512 → UInt512 → Option (UInt512 × UInt512)
  | 0, _, _, _, _ => none
  | turns + 1, r0, r1, u0, u1 =>
    if r1.isZero then some (r0, u0)
    else
      let (q, rNext) := r0.divModCore r1 (ofUInt32 0)
      let term := q.mulMod u1 m
      euclidLoop m turns r1 rNext u1 (subMod m u0 term)

def modInverse (a m : UInt512) : Option UInt512 :=
  (euclidLoop m (m.toNat + 1) a m (ofUInt32 1) (ofUInt32 0)).map fun reached =>
    if reached.1.toNat ≠ 1 then ofUInt32 0 else reached.2

private theorem toNat_subMod (m u0 term : UInt512) (bound : term.toNat < m.toNat) :
    (subMod m u0 term).toNat = ModularEuclid.subMod m.toNat u0.toNat term.toNat := by
  have modulus := m.toNat_lt
  have coefficient := u0.toNat_lt
  rw [subMod, ModularEuclid.subMod]
  by_cases below : u0.toNat < term.toNat
  · rw [if_pos below, if_pos ((less_iff _ _).mpr below), toNat_sub, toNat_add]
    have wrapped : u0.toNat + m.toNat + (cardinality - term.toNat) =
        u0.toNat + m.toNat - term.toNat + cardinality := by omega
    rw [Nat.mod_add_mod, wrapped, Nat.add_mod_right, Nat.mod_eq_of_lt (by omega)]
  · rw [if_neg below, if_neg (mt (less_iff _ _).mp below), toNat_sub_of_le (Nat.not_lt.mp below)]

private theorem euclidLoop_ends {m : UInt512} (nonzero : m.toNat ≠ 0) {turns : Nat}
    {r0 r1 u0 u1 : UInt512} (enough : r1.toNat < turns) :
    ∃ r u, euclidLoop m turns r0 r1 u0 u1 = some (r, u) ∧
      Ends m.toNat ⟨r0.toNat, r1.toNat, u0.toNat, u1.toNat⟩ r.toNat u.toNat := by
  induction turns generalizing r0 r1 u0 u1 with
  | zero => exact absurd enough (Nat.not_lt_zero _)
  | succ turns induction =>
    rw [euclidLoop]
    by_cases last : r1.toNat = 0
    · refine ⟨r0, u0, if_pos ((isZero_iff r1).mpr last), ?_⟩
      rw [last]
      exact .done
    · have division := divModCore_spec r0 (ofUInt32 0) last
      have falls : (r0.divModCore r1 (ofUInt32 0)).2.toNat < r1.toNat := by
        rw [division.2]
        exact Nat.mod_lt _ (Nat.pos_of_ne_zero last)
      have term := toNat_mulMod (r0.divModCore r1 (ofUInt32 0)).1 u1 nonzero
      have bound : ((r0.divModCore r1 (ofUInt32 0)).1.mulMod u1 m).toNat < m.toNat := by
        rw [term]
        exact Nat.mod_lt _ (Nat.pos_of_ne_zero nonzero)
      rcases @induction r1 (r0.divModCore r1 (ofUInt32 0)).2 u1
        (subMod m u0 ((r0.divModCore r1 (ofUInt32 0)).1.mulMod u1 m)) (by omega)
        with ⟨r, u, run, ends⟩
      refine ⟨r, u, (if_neg (mt (isZero_iff r1).mp last)).trans run, .turn last ?_⟩
      rwa [toNat_subMod _ _ _ bound, term, division.1, division.2] at ends

/-- The loop returns, and its result is a reduced inverse where there is one. -/
theorem modInverse_ends (a : UInt512) {m : UInt512} (nonzero : m.toNat ≠ 0) :
    ∃ r u : UInt512, Ends m.toNat ⟨a.toNat, m.toNat, 1, 0⟩ r.toNat u.toNat ∧
      modInverse a m = some (if r.toNat ≠ 1 then ofUInt32 0 else u) := by
  rcases @euclidLoop_ends m nonzero (m.toNat + 1) a m (ofUInt32 1) (ofUInt32 0)
    (Nat.lt_succ_self _) with ⟨r, u, run, ends⟩
  rw [toNat_ofUInt32, toNat_ofUInt32] at ends
  exact ⟨r, u, ends, by rw [modInverse, run]; rfl⟩

/-! ## The modulus of 32 bits -/

section Words

variable {m : BitVec 32}

theorem toNat_pos_of_ne_zero (nonzero : m ≠ 0) : 0 < m.toNat :=
  Nat.pos_of_ne_zero fun zero => nonzero (BitVec.toNat_inj.mp zero)

theorem toNat_term (positive : 0 < m.toNat) (q u : BitVec 32) :
    ((q.setWidth 64 * u.setWidth 64 % m.setWidth 64).setWidth 32).toNat =
      q.toNat * u.toNat % m.toNat := by
  have residue := residue_mul positive q u
  have cast := residue.cast
  rw [← Nat.cast_mul, ZMod.natCast_eq_natCast_iff', Nat.mod_eq_of_lt residue.lt] at cast
  exact cast

private theorem toNat_subMod32 {u0 term : BitVec 32} (bound : term.toNat < m.toNat) :
    (if u0 < term then u0 + m - term else u0 - term).toNat =
      ModularEuclid.subMod m.toNat u0.toNat term.toNat := by
  have modulus := m.isLt
  rw [ModularEuclid.subMod]
  by_cases below : u0.toNat < term.toNat
  · rw [if_pos below, if_pos (BitVec.lt_def.mpr below), BitVec.toNat_sub, BitVec.toNat_add]
    omega
  · rw [if_neg below, if_neg (mt BitVec.lt_def.mp below),
      BitVec.toNat_sub_of_le (Nat.not_lt.mp below)]

/-- The loop over words ends where the algorithm ends. -/
theorem euclidLoop32_ends (nonzero : m ≠ 0) {turns : Nat} {r0 r1 u0 u1 : BitVec 32}
    (enough : r1.toNat < turns) : Ends m.toNat ⟨r0.toNat, r1.toNat, u0.toNat, u1.toNat⟩
      (CudaMpqs.euclidLoop m turns r0 r1 u0 u1).1.toNat
      (CudaMpqs.euclidLoop m turns r0 r1 u0 u1).2.toNat := by
  have positive := toNat_pos_of_ne_zero nonzero
  induction turns generalizing r0 r1 u0 u1 with
  | zero => exact absurd enough (Nat.not_lt_zero _)
  | succ turns induction =>
    rw [CudaMpqs.euclidLoop]
    by_cases last : r1 = 0
    · rw [if_pos last, last]
      exact .done
    · have more := toNat_pos_of_ne_zero last
      have falls : (r0 % r1).toNat < r1.toNat := by
        rw [BitVec.toNat_umod]
        exact Nat.mod_lt _ more
      have term := toNat_term positive (r0 / r1) u1
      have bound : (((r0 / r1).setWidth 64 * u1.setWidth 64 % m.setWidth 64).setWidth 32).toNat <
          m.toNat := by
        rw [term]
        exact Nat.mod_lt _ positive
      rw [if_neg last]
      dsimp only
      generalize ((r0 / r1).setWidth 64 * u1.setWidth 64 % m.setWidth 64).setWidth 32 = word at *
      have rest := @induction r1 (r0 % r1) u1 (if u0 < word then u0 + m - word else u0 - word)
        (by omega)
      rw [toNat_subMod32 bound, term, BitVec.toNat_umod, BitVec.toNat_udiv] at rest
      exact .turn more.ne' rest

private theorem modInverse_ofUInt32 (a : UInt512) (nonzero : m ≠ 0) :
    (modInverse a (ofUInt32 m)).map toNat = some (CudaMpqs.modInverse a m).toNat := by
  have positive := toNat_pos_of_ne_zero nonzero
  have modulus := toNat_ofUInt32 m
  rcases modInverse_ends a (show (ofUInt32 m).toNat ≠ 0 by rw [modulus]; exact positive.ne') with
    ⟨r, u, ends, result⟩
  rw [modulus] at ends
  have words := @euclidLoop32_ends m nonzero (m.toNat + 1) (a.modUInt32 m) m 1 0
    (Nat.lt_succ_self _)
  rw [a.toNat_modUInt32 nonzero] at words
  rcases words.unique (ends.reduced positive) with ⟨divisor, coefficient⟩
  have one : (CudaMpqs.euclidLoop m (m.toNat + 1) (a.modUInt32 m) m 1 0).1 = 1 ↔
      r.toNat = 1 := by
    rw [← divisor, ← BitVec.toNat_inj]
    rfl
  rw [result, CudaMpqs.modInverse]
  by_cases coprime : r.toNat = 1
  · simp only [one.mpr coprime, coprime, ne_eq, not_true_eq_false, if_false, Option.map_some]
    rw [coefficient]
  · simp only [mt one.mp coprime, coprime, ne_eq, not_false_eq_true, if_true, Option.map_some]
    rw [toNat_ofUInt32]

end Words

/-- `mod_inverse` returns the reduced inverse, or zero where there is none, for every modulus.
Modulo zero only 1 has an inverse. -/
theorem modInverse_spec (a m : UInt512) : ∃ x, modInverse a m = some x ∧
    (Nat.gcd a.toNat m.toNat = 1 →
      a.toNat * x.toNat ≡ 1 [MOD m.toNat] ∧ (m.toNat ≠ 0 → x.toNat < m.toNat)) ∧
    (Nat.gcd a.toNat m.toNat ≠ 1 → x.toNat = 0) ∧
    ∀ p : BitVec 32, p ≠ 0 → m = ofUInt32 p → x.toNat = (CudaMpqs.modInverse a p).toNat := by
  by_cases zero : m.toNat = 0
  · have run : modInverse a m = some (if a.toNat ≠ 1 then ofUInt32 0 else ofUInt32 1) := by
      rw [modInverse, euclidLoop, if_pos ((isZero_iff m).mpr zero)]
      rfl
    refine ⟨_, run, ?_, ?_, ?_⟩
    · intro coprime
      rw [zero, Nat.gcd_zero_right] at coprime
      rw [if_neg (not_not.mpr coprime), coprime, toNat_ofUInt32]
      exact ⟨rfl, fun nonzero => absurd zero nonzero⟩
    · intro common
      rw [zero, Nat.gcd_zero_right] at common
      rw [if_pos common, toNat_ofUInt32]
      rfl
    · intro p nonzero same
      rw [same, toNat_ofUInt32] at zero
      exact absurd zero (toNat_pos_of_ne_zero nonzero).ne'
  · have positive := Nat.pos_of_ne_zero zero
    rcases modInverse_ends a zero with ⟨r, u, ends, result⟩
    rcases ends.start positive with ⟨divisor, coefficient, bound⟩
    refine ⟨_, result, ?_, ?_, ?_⟩
    · intro coprime
      have one : r.toNat = 1 := divisor.trans coprime
      rw [if_neg (not_not.mpr one)]
      rw [one, ← Nat.cast_mul, Nat.mul_comm] at coefficient
      exact ⟨(ZMod.natCast_eq_natCast_iff _ _ _).mp coefficient, fun _ => bound⟩
    · intro common
      have more : r.toNat ≠ 1 := fun one => common (divisor.symm.trans one)
      rw [if_pos more, toNat_ofUInt32]
      rfl
    · intro p nonzero same
      have agree := modInverse_ofUInt32 a nonzero
      rw [← same, result] at agree
      exact Option.some.inj agree

end CudaMpqs.UInt512
