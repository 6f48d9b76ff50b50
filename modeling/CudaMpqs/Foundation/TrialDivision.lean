import Mathlib.Data.Nat.Factorization.Basic
import Mathlib.Tactic.Ring

/-! # Trial division with bounded counters

A number is divided by one prime after the other. Each prime's multiplicity goes into a
counter that wraps; what the counters say, what is left and what they lost make up the
number again. -/

namespace CudaMpqs.TrialDivision

def stripped (p n : Nat) : Nat := n / p ^ n.factorization p

theorem pow_mul_stripped (p n : Nat) : p ^ n.factorization p * stripped p n = n :=
  Nat.ordProj_mul_ordCompl_eq_self n p

theorem stripped_zero (p : Nat) : stripped p 0 = 0 := Nat.zero_div _

theorem stripped_ne_zero {p n : Nat} (nonzero : n ≠ 0) : stripped p n ≠ 0 := by
  intro zero
  have whole := pow_mul_stripped p n
  rw [zero, Nat.mul_zero] at whole
  exact nonzero whole.symm

theorem factorization_stripped (p n r : Nat) :
    (stripped p n).factorization r = if r = p then 0 else n.factorization r := by
  rw [stripped, Nat.factorization_ordCompl]
  by_cases same : r = p
  · rw [if_pos same, same, Finsupp.erase_same]
  · rw [if_neg same, Finsupp.erase_ne same]

theorem stripped_of_dvd {p n : Nat} (prime : p.Prime) (divides : p ∣ n) (nonzero : n ≠ 0) :
    stripped p n = stripped p (n / p) ∧ n.factorization p = (n / p).factorization p + 1 := by
  rcases divides with ⟨quotient, rfl⟩
  have rest : quotient ≠ 0 := right_ne_zero_of_mul nonzero
  have one : (p * quotient).factorization p = quotient.factorization p + 1 := by
    rw [Nat.factorization_mul prime.ne_zero rest, Finsupp.add_apply, prime.factorization_self,
      Nat.add_comm]
  rw [Nat.mul_div_cancel_left _ prime.pos]
  refine ⟨?_, one⟩
  rw [stripped, stripped, one, Nat.pow_succ', Nat.mul_div_mul_left _ _ prime.pos]

theorem stripped_of_not_dvd {p n : Nat} (indivisible : ¬ p ∣ n) :
    stripped p n = n ∧ n.factorization p = 0 := by
  have none_ : n.factorization p = 0 := Nat.factorization_eq_zero_of_not_dvd indivisible
  rw [stripped, none_, Nat.pow_zero, Nat.div_one]
  exact ⟨rfl, rfl⟩

/-- Where the division of `value` stands: the primes that are done, what is left, the
product that the counters tell, and what they lost. -/
structure Divided (limit value : Nat) (done : List Nat) (rest product lost : Nat) : Prop where
  whole : value = rest * product * lost
  factorization : ∀ r, rest.factorization r = if r ∈ done then 0 else value.factorization r
  lost_iff : lost = 1 ↔ ∀ r ∈ done, value.factorization r < limit

theorem Divided.start (limit value : Nat) : Divided limit value [] value 1 1 where
  whole := by rw [Nat.mul_one, Nat.mul_one]
  factorization r := by simp
  lost_iff := iff_of_true rfl nofun

theorem Divided.step {limit value : Nat} {done : List Nat} {rest product lost p : Nat}
    (divided : Divided limit value done rest product lost) (prime : p.Prime)
    (positive : 0 < limit) :
    Divided limit value (p :: done) (stripped p rest) (product * p ^ (rest.factorization p % limit))
      (lost * p ^ (limit * (rest.factorization p / limit))) where
  whole := by
    have powers : p ^ rest.factorization p =
        p ^ (rest.factorization p % limit) * p ^ (limit * (rest.factorization p / limit)) := by
      rw [← Nat.pow_add, Nat.mod_add_div]
    calc value = p ^ rest.factorization p * stripped p rest * product * lost := by
          rw [pow_mul_stripped]
          exact divided.whole
      _ = _ := by
          rw [powers]
          ring
  factorization r := by
    rw [factorization_stripped, divided.factorization]
    by_cases same : r = p
    · rw [if_pos same, if_pos (by rw [same]; exact List.mem_cons_self)]
    · rw [if_neg same]
      simp only [List.mem_cons, same, false_or]
  lost_iff := by
    have power : p ^ (limit * (rest.factorization p / limit)) = 1 ↔
        rest.factorization p < limit := by
      rw [Nat.pow_eq_one, or_iff_right prime.one_lt.ne', Nat.mul_eq_zero,
        or_iff_right positive.ne', Nat.div_eq_zero_iff, or_iff_right positive.ne']
    rw [mul_eq_one, power, divided.lost_iff, divided.factorization p, List.forall_mem_cons,
      and_comm]
    by_cases already : p ∈ done
    · rw [if_pos already]
      exact and_congr_left fun every => iff_of_true positive (every p already)
    · rw [if_neg already]

end CudaMpqs.TrialDivision
