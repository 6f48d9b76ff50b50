import Mathlib.NumberTheory.LegendreSymbol.JacobiSymbol

/-! # Jacobi symbols

The host functions strip all factors of two at once, the device functions one at a
time. A loop that is still running when its turns are spent returns `none`. -/

namespace CudaMpqs

/-! ## `prime_algorithms.cu` -/

def jacobiLoop {width : Nat} : Nat → BitVec width → BitVec width → Int → Option Int
  | 0, _, _, _ => none
  | turns + 1, a, n, t =>
    if a ≠ 0 then
      let zeros := a.ctz.toNat
      let odd := a >>> zeros
      let halved := if zeros % 2 = 1 then (if n % 8 = 3 ∨ n % 8 = 5 then -t else t) else t
      let swapped := if odd % 4 = 3 ∧ n % 4 = 3 then -halved else halved
      jacobiLoop turns (n % odd) odd swapped
    else if n = 1 then some t else some 0

def jacobiWord {width : Nat} (a n : BitVec width) : Option Int :=
  jacobiLoop (n.toNat + 1) (a % n) n 1

def jacobi (a n : BitVec 32) : Option Int := jacobiWord a n

def jacobiU64 (a n : BitVec 64) : Option Int := jacobiWord a n

/-! ## `gpu_char_cols.cuh` -/

def removeTwos {width : Nat} : Nat → BitVec width → BitVec width → Int → Option (BitVec width × Int)
  | 0, _, _, _ => none
  | turns + 1, a, n, t =>
    if a &&& 1 = 0 then
      removeTwos turns (a >>> 1) n (if n &&& 7 = 3 ∨ n &&& 7 = 5 then -t else t)
    else some (a, t)

def jacobiDevLoop {width : Nat} : Nat → BitVec width → BitVec width → Int → Option Int
  | 0, _, _, _ => none
  | turns + 1, a, n, t =>
    if a ≠ 0 then
      (removeTwos (width + 1) a n t).bind fun (odd, halved) =>
        jacobiDevLoop turns (n % odd) odd
          (if n &&& 3 = 3 ∧ odd &&& 3 = 3 then -halved else halved)
    else if n = 1 then some t else some 0

def jacobiDevWord {width : Nat} (a n : BitVec width) : Option Int :=
  jacobiDevLoop (n.toNat + 1) (a % n) n 1

def jacobiSymbolDev (a n : BitVec 32) : Option Int := jacobiDevWord a n

def jacobiSymbolDevU64 (a n : BitVec 64) : Option Int := jacobiDevWord a n

/-! ## The sign rules -/

section SignRules

variable {a n : Nat}

theorem jacobiSym_double (odd : n % 2 = 1) (a : Nat) : jacobiSym ((2 * a : Nat) : Int) n =
      if n % 8 = 3 ∨ n % 8 = 5 then -jacobiSym a n else jacobiSym a n := by
  rw [Nat.cast_mul, jacobiSym.mul_left, Nat.cast_ofNat,
    jacobiSym.at_two (Nat.odd_iff.mpr odd), ZMod.χ₈_nat_eq_if_mod_eight]
  have residues : n % 8 = 1 ∨ n % 8 = 3 ∨ n % 8 = 5 ∨ n % 8 = 7 := by omega
  rcases residues with residue | residue | residue | residue <;> simp [residue, odd]

theorem jacobiSym_twos (odd : n % 2 = 1) (zeros a : Nat) :
    jacobiSym ((2 ^ zeros * a : Nat) : Int) n =
      if zeros % 2 = 1 ∧ (n % 8 = 3 ∨ n % 8 = 5) then -jacobiSym a n else jacobiSym a n := by
  induction zeros with
  | zero => simp
  | succ zeros previous =>
    rw [pow_succ', mul_assoc, jacobiSym_double odd, previous]
    by_cases flips : n % 8 = 3 ∨ n % 8 = 5
    · rcases Nat.mod_two_eq_zero_or_one zeros with even | uneven
      · simp [flips, even, Nat.succ_mod_two_eq_one_iff.mpr even]
      · simp [flips, uneven, Nat.succ_mod_two_eq_zero_iff.mpr uneven]
    · simp [flips]

theorem jacobiSym_swap (left : a % 2 = 1) (right : n % 2 = 1) : jacobiSym a n =
      if a % 4 = 3 ∧ n % 4 = 3 then -jacobiSym ((n % a : Nat) : Int) a
      else jacobiSym ((n % a : Nat) : Int) a := by
  rw [← jacobiSym.quadratic_reciprocity_if left right, Int.natCast_mod, ← jacobiSym.mod_left]

theorem jacobiSym_zero (odd : n % 2 = 1) : jacobiSym 0 n = if n = 1 then 1 else 0 := by
  by_cases one : n = 1
  · simp [one]
  · rw [jacobiSym.zero_left (by omega), if_neg one]

end SignRules

/-! ## Words -/

section Words

variable {width modulus residue : Nat} {a n : BitVec width}

theorem umod_ofNat_eq_iff (fits : modulus < 2 ^ width) (below : residue < 2 ^ width) :
    n % BitVec.ofNat width modulus = BitVec.ofNat width residue ↔ n.toNat % modulus = residue := by
  rw [BitVec.toNat_eq, BitVec.toNat_umod, BitVec.toNat_ofNat, BitVec.toNat_ofNat,
    Nat.mod_eq_of_lt fits, Nat.mod_eq_of_lt below]

theorem and_ofNat_eq_iff (exponent : Nat) (fits : exponent < width) (below : residue < 2 ^ width) :
    n &&& BitVec.ofNat width (2 ^ exponent - 1) = BitVec.ofNat width residue ↔
      n.toNat % 2 ^ exponent = residue := by
  have mask : 2 ^ exponent - 1 < 2 ^ width :=
    lt_of_le_of_lt (Nat.sub_le _ _) (Nat.pow_lt_pow_right (by decide) fits)
  rw [BitVec.toNat_eq, BitVec.toNat_and, BitVec.toNat_ofNat, BitVec.toNat_ofNat,
    Nat.mod_eq_of_lt mask, Nat.mod_eq_of_lt below, Nat.and_two_pow_sub_one_eq_mod]

theorem toNat_ushiftRight_ctz (nonzero : a ≠ 0) :
    2 ^ a.ctz.toNat * (a >>> a.ctz.toNat).toNat = a.toNat ∧ (a >>> a.ctz.toNat).toNat % 2 = 1 := by
  have lowest := BitVec.getLsbD_true_ctz_of_ne_zero nonzero
  have below : a.toNat % 2 ^ a.ctz.toNat = 0 := by
    refine Nat.eq_of_testBit_eq fun bit => ?_
    rw [Nat.testBit_mod_two_pow, Nat.zero_testBit, Bool.and_eq_false_imp, decide_eq_true_eq]
    exact fun lower => BitVec.getLsbD_false_of_lt_ctz lower
  rw [BitVec.toNat_ushiftRight, Nat.shiftRight_eq_div_pow]
  rw [BitVec.getLsbD, Nat.testBit_eq_decide_div_mod_eq, decide_eq_true_eq] at lowest
  exact ⟨Nat.mul_div_cancel' (Nat.dvd_of_mod_eq_zero below), lowest⟩

theorem toNat_pos (nonzero : a ≠ 0) : 0 < a.toNat :=
  Nat.pos_of_ne_zero fun zero => nonzero (BitVec.eq_of_toNat_eq zero)

end Words

/-! ## The loops keep `t * J(a | n)` -/

section Loops

variable {width : Nat} {a n : BitVec width}

theorem jacobi_end (wide : 4 ≤ width) (odd : n.toNat % 2 = 1) (t : Int) :
    (if n = 1 then some t else some 0) = some (t * jacobiSym 0 n.toNat) := by
  have one : n = 1 ↔ n.toNat = 1 := by
    rw [BitVec.toNat_eq]
    exact Eq.congr_right (Nat.mod_eq_of_lt (Nat.one_lt_two_pow (by omega)))
  rw [jacobiSym_zero odd, if_congr one rfl rfl]
  split_ifs <;> simp

section

variable (wide : 4 ≤ width) (turns : Nat) (t : Int) (odd : n.toNat % 2 = 1)

include wide turns t odd

theorem jacobiLoop_eq (enough : a.toNat < turns) :
    jacobiLoop turns a n t = some (t * jacobiSym a.toNat n.toNat) := by
  have eight : 8 < 2 ^ width := lt_of_lt_of_le (by decide) (Nat.pow_le_pow_right two_pos wide)
  induction turns generalizing a n t with
  | zero => omega
  | succ turns next =>
    rw [jacobiLoop]
    by_cases nonzero : a ≠ 0
    · have three : n % 8 = 3 ↔ n.toNat % 8 = 3 :=
        @umod_ofNat_eq_iff width 8 3 n eight (by omega)
      have five : n % 8 = 5 ↔ n.toNat % 8 = 5 :=
        @umod_ofNat_eq_iff width 8 5 n eight (by omega)
      have quarter : ∀ word : BitVec width, word % 4 = 3 ↔ word.toNat % 4 = 3 :=
        fun word => @umod_ofNat_eq_iff width 4 3 word (by omega) (by omega)
      rcases toNat_ushiftRight_ctz nonzero with ⟨split, oddPart⟩
      have positive := Nat.two_pow_pos a.ctz.toNat
      have shrinks : (n % a >>> a.ctz.toNat).toNat < turns := by
        have falls := Nat.mod_lt n.toNat (by omega : 0 < (a >>> a.ctz.toNat).toNat)
        have least := Nat.le_mul_of_pos_left (a >>> a.ctz.toNat).toNat positive
        rw [BitVec.toNat_umod]
        omega
      rw [if_pos nonzero, next _ oddPart shrinks]
      rw [← split, jacobiSym_twos odd, jacobiSym_swap oddPart odd, BitVec.toNat_umod]
      simp only [three, five, quarter, ite_and]
      split_ifs <;> simp
    · have zero : a = 0 := not_not.mp nonzero
      rw [if_neg nonzero, jacobi_end wide odd, zero]
      rfl

theorem removeTwos_eq (nonzero : 0 < a.toNat) (enough : a.toNat < 2 ^ turns) :
    ∃ rest sign, removeTwos (turns + 1) a n t = some (rest, sign) ∧
      rest.toNat % 2 = 1 ∧ rest.toNat ≤ a.toNat ∧
        sign * jacobiSym rest.toNat n.toNat = t * jacobiSym a.toNat n.toNat := by
  have eight : 8 < 2 ^ width := lt_of_lt_of_le (by decide) (Nat.pow_le_pow_right two_pos wide)
  have lastBit : ∀ word : BitVec width, word &&& 1 = 0 ↔ word.toNat % 2 = 0 :=
    fun word => @and_ofNat_eq_iff width 0 word 1 (by omega) (by omega)
  have three : n &&& 7 = 3 ↔ n.toNat % 8 = 3 :=
    @and_ofNat_eq_iff width 3 n 3 (by omega) (by omega)
  have five : n &&& 7 = 5 ↔ n.toNat % 8 = 5 :=
    @and_ofNat_eq_iff width 5 n 3 (by omega) (by omega)
  induction turns generalizing a t with
  | zero => omega
  | succ turns next =>
    rw [removeTwos]
    by_cases even : a.toNat % 2 = 0
    · have half : (a >>> 1).toNat = a.toNat / 2 := by
        rw [BitVec.toNat_ushiftRight, Nat.shiftRight_one]
      have halfBelow : (a >>> 1).toNat < 2 ^ turns := by
        rw [pow_succ] at enough
        omega
      have whole : a.toNat = 2 * (a >>> 1).toNat := by omega
      rcases next (if n &&& 7 = 3 ∨ n &&& 7 = 5 then -t else t) (by omega) halfBelow with
        ⟨rest, sign, reached, oddPart, below, kept⟩
      refine ⟨rest, sign, by rw [if_pos ((lastBit a).mpr even), reached], oddPart,
        by omega, ?_⟩
      rw [kept, whole, jacobiSym_double odd]
      simp only [three, five]
      split_ifs <;> simp
    · exact ⟨a, t, if_neg (mt (lastBit a).mp even), by omega, le_rfl, rfl⟩

theorem jacobiDevLoop_eq (enough : a.toNat < turns) :
    jacobiDevLoop turns a n t = some (t * jacobiSym a.toNat n.toNat) := by
  have eight : 8 < 2 ^ width := lt_of_lt_of_le (by decide) (Nat.pow_le_pow_right two_pos wide)
  induction turns generalizing a n t with
  | zero => omega
  | succ turns next =>
    rw [jacobiDevLoop]
    by_cases nonzero : a ≠ 0
    · have quarter : ∀ word : BitVec width, word &&& 3 = 3 ↔ word.toNat % 4 = 3 :=
        fun word => @and_ofNat_eq_iff width 3 word 2 (by omega) (by omega)
      rcases removeTwos_eq wide width t odd (toNat_pos nonzero) a.isLt with
        ⟨rest, sign, removed, oddPart, below, kept⟩
      have shrinks : (n % rest).toNat < turns := by
        have falls := Nat.mod_lt n.toNat (by omega : 0 < rest.toNat)
        rw [BitVec.toNat_umod]
        omega
      rw [if_pos nonzero, removed, Option.bind_some]
      refine (next _ oddPart shrinks).trans ?_
      rw [← kept, jacobiSym_swap oddPart odd, BitVec.toNat_umod]
      simp only [quarter, and_comm (a := n.toNat % 4 = 3)]
      split_ifs <;> simp
    · have zero : a = 0 := not_not.mp nonzero
      rw [if_neg nonzero, jacobi_end wide odd, zero]
      rfl

end

end Loops

/-! ## Whole calls -/

section Calls

variable {width : Nat} {a n : BitVec width}

theorem jacobiWord_eq (wide : 4 ≤ width) (odd : n.toNat % 2 = 1) :
    jacobiWord a n = some (jacobiSym a.toNat n.toNat) := by
  have falls := Nat.mod_lt a.toNat (by omega : 0 < n.toNat)
  rw [jacobiWord, jacobiLoop_eq wide _ 1 odd (by rw [BitVec.toNat_umod]; omega),
    BitVec.toNat_umod, one_mul, Int.natCast_mod, ← jacobiSym.mod_left]

private theorem jacobiDevWord_eq (wide : 4 ≤ width) (odd : n.toNat % 2 = 1) :
    jacobiDevWord a n = some (jacobiSym a.toNat n.toNat) := by
  have falls := Nat.mod_lt a.toNat (by omega : 0 < n.toNat)
  rw [jacobiDevWord, jacobiDevLoop_eq wide _ 1 odd (by rw [BitVec.toNat_umod]; omega),
    BitVec.toNat_umod, one_mul, Int.natCast_mod, ← jacobiSym.mod_left]

end Calls

/-- All four functions return, and what they return is the Jacobi symbol. -/
theorem jacobi_symbols : (∀ a n : BitVec 32, n.toNat % 2 = 1 →
      jacobi a n = some (jacobiSym a.toNat n.toNat) ∧
        jacobiSymbolDev a n = some (jacobiSym a.toNat n.toNat)) ∧
      ∀ a n : BitVec 64, n.toNat % 2 = 1 → jacobiU64 a n = some (jacobiSym a.toNat n.toNat) ∧
          jacobiSymbolDevU64 a n = some (jacobiSym a.toNat n.toNat) :=
  ⟨fun _ _ odd => ⟨jacobiWord_eq (by decide) odd, jacobiDevWord_eq (by decide) odd⟩,
    fun _ _ odd => ⟨jacobiWord_eq (by decide) odd, jacobiDevWord_eq (by decide) odd⟩⟩

/-- A common factor, and the modulus one. -/
theorem jacobi_symbols_common :
    jacobi 21 15 = some (jacobiSym 21 15) ∧ jacobiSymbolDevU64 5 1 = some (jacobiSym 5 1) :=
  ⟨(jacobi_symbols.1 21 15 (by decide)).1, (jacobi_symbols.2 5 1 (by decide)).2⟩

example : jacobi 21 15 = some 0 ∧ jacobiSymbolDevU64 5 1 = some 1 ∧
    jacobiSymbolDev 7 15 = some (-1) := by decide +kernel

end CudaMpqs
