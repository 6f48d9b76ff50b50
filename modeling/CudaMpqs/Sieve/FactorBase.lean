import CudaMpqs.Sieve.JacobiSymbols
import CudaMpqs.Sieve.TonelliShanks

/-! # The factor base

`generateFactorBase` sieves the primes up to the bound, keeps those modulo which `N` is
a square, and stores the smaller square root of each. -/

namespace CudaMpqs

namespace FactorBase

/-- `for (uint32_t j = start; j <= last; j += step)`: the index wraps, and `none` is a
loop still running when its turns are spent. -/
def strideLoop {State : Type} (last step : Nat) (body : State → Nat → Option State) :
    Nat → Nat → State → Option State
  | 0, _, _ => none
  | turns + 1, j, state =>
    if j ≤ last then
      (body state j).bind (strideLoop last step body turns ((j + step) % 2 ^ 32))
    else some state

def mark (isComposite : List Bool) (j : Nat) : Option (List Bool) :=
  some (isComposite.set j true)

/-- Strikes out the odd multiples of `i` from its square on, unless `i` is struck out. -/
def strike (F : Nat) (isComposite : List Bool) (i : Nat) : Option (List Bool) :=
  if isComposite[i]? = some false then
    strideLoop F (2 * i % 2 ^ 32) mark (F + 1) (i * i % 2 ^ 32) isComposite
  else some isComposite

/-- The sieve of Eratosthenes up to `F`; the square root of a 32-bit number is exact in
a `double`. -/
def sieve (F : Nat) : Option (List Bool) :=
  (strideLoop F 2 mark (F + 1) 4 (((List.replicate (F + 1) false).set 0 true).set 1 true)).bind
      (strideLoop (Nat.sqrt F) 2 (strike F) (F + 1) 3)

abbrev Entries := List (BitVec 32) × List (BitVec 32)

def populate (N : UInt512) (isComposite : List Bool) (entries : Entries) (p : Nat) :
    Option Entries :=
  if isComposite[p]? = some false then
    let word := BitVec.ofNat 32 p
    let reduced := N.modUInt32 word
    (jacobi reduced word).bind fun symbol =>
      if symbol = 1 then
        (tonelliShanks reduced word).map fun root =>
          (entries.1 ++ [word], entries.2 ++ [if root > word >>> 1 then word - root else root])
      else some entries
  else some entries

end FactorBase

structure FactorBaseData where
  size : BitVec 32
  factorBase : List (BitVec 32)
  rootN : List (BitVec 32)
  deriving DecidableEq

open FactorBase in
def generateFactorBase (N : UInt512) (F : BitVec 32) : Option FactorBaseData :=
  (sieve F.toNat).bind fun isComposite =>
    (strideLoop F.toNat 2 (populate N isComposite) (F.toNat + 1) 3 ([], [])).map
      fun (factorBase, rootN) => ⟨BitVec.ofNat 32 factorBase.length, factorBase, rootN⟩

namespace FactorBase

/-! ## The index loop -/

section StrideLoop

variable {State : Type} {last step : Nat} {body : State → Nat → Option State}

theorem strideLoop_induct (Holds : Nat → State → Prop) (positive : 0 < step)
    (fits : last + step < 2 ^ 32)
    (keeps : ∀ j state, j ≤ last → Holds j state →
      ∃ next, body state j = some next ∧ Holds (j + step) next)
    (turns : Nat) {j : Nat} {state : State} (holds : Holds j state)
    (enough : last < j + turns) :
    ∃ stop final, strideLoop last step body (turns + 1) j state = some final ∧
      last < stop ∧ Holds stop final := by
  induction turns generalizing j state with
  | zero => exact ⟨j, state, if_neg (by omega), by omega, holds⟩
  | succ turns later =>
    rw [strideLoop]
    by_cases inside : j ≤ last
    · rcases keeps j state inside holds with ⟨next, moved, kept⟩
      rw [if_pos inside, moved, Option.bind_some, Nat.mod_eq_of_lt (by omega)]
      exact later kept (by omega)
    · exact ⟨j, state, if_neg inside, by omega, holds⟩

end StrideLoop

/-! ## The sieve -/

section Sieve

variable {F : Nat}

private theorem lt_add_iff_of_dvd {start step j m : Nat} (above : start ≤ j)
    (divides : step ∣ j - start)
    (differs : m ≠ j) (multiple : step ∣ m - start) :
    m < j + step ↔ m < j := by
  refine ⟨fun below => ?_, fun below => by omega⟩
  by_contra past
  have gap : step ∣ m - j := by
    have split : m - j = m - start - (j - start) := by omega
    rw [split]
    exact Nat.dvd_sub multiple divides
  have wide := Nat.le_of_dvd (by omega) gap
  omega

theorem mark_loop {base : List Bool} {start step : Nat} (length : base.length = F + 1)
    (positive : 0 < step) (fits : F + step < 2 ^ 32) (later : 0 < start) :
    ∃ final, strideLoop F step mark (F + 1) start base = some final ∧
      final.length = F + 1 ∧ ∀ m ≤ F, final[m]? = some true ↔
        base[m]? = some true ∨ start ≤ m ∧ step ∣ m - start := by
  let Holds : Nat → List Bool → Prop := fun j marks =>
    marks.length = F + 1 ∧ start ≤ j ∧ step ∣ j - start ∧ ∀ m ≤ F, marks[m]? = some true ↔
        base[m]? = some true ∨ start ≤ m ∧ m < j ∧ step ∣ m - start
  have first : Holds start base :=
    ⟨length, le_rfl, by rw [Nat.sub_self]; exact dvd_zero step,
      fun m _ => ⟨Or.inl, fun either => either.resolve_right fun inside => by omega⟩⟩
  have keeps : ∀ j marks, j ≤ F → Holds j marks →
      ∃ next, mark marks j = some next ∧ Holds (j + step) next := by
    rintro j marks inside ⟨size, above, divides, exact⟩
    refine ⟨_, rfl, by rw [List.length_set, size], by omega, ?_, fun m below => ?_⟩
    · rw [Nat.sub_add_comm above]
      exact (Nat.dvd_add_right divides).mpr dvd_rfl
    · rw [List.getElem?_set]
      by_cases same : j = m
      · subst same
        rw [if_pos rfl, if_pos (by omega)]
        exact iff_of_true rfl (Or.inr ⟨above, by omega, divides⟩)
      · rw [if_neg same, exact m below]
        refine or_congr_right (and_congr_right fun _ => and_congr_left fun multiple => ?_)
        exact (lt_add_iff_of_dvd above divides (Ne.symm same) multiple).symm
  rcases strideLoop_induct Holds positive fits keeps F first (by omega) with
    ⟨stop, final, reached, past, size, -, -, exact⟩
  refine ⟨final, reached, size, fun m below => (exact m below).trans ?_⟩
  have inside : m < stop := by omega
  simp only [inside, true_and]

def Struck (i m : Nat) : Prop := m < 2 ∨ ∃ d, 2 ≤ d ∧ d < i ∧ d ∣ m ∧ d * d ≤ m

def Sieved (F i : Nat) (isComposite : List Bool) : Prop :=
  isComposite.length = F + 1 ∧ ∀ m ≤ F, isComposite[m]? = some true ↔ Struck i m

theorem Struck.of_even {i m : Nat} (three : 3 ≤ i) (even : 2 ∣ m) (four : 4 ≤ m) : Struck i m :=
  Or.inr ⟨2, le_rfl, by omega, even, four⟩

theorem Struck.mono {i j m : Nat} (le : i ≤ j) (struck : Struck i m) : Struck j m := by
  rcases struck with small | ⟨d, two, below, divides, root⟩
  · exact Or.inl small
  · exact Or.inr ⟨d, two, by omega, divides, root⟩

/-- Of the two candidates that `i` stands for only `i` itself is new. -/
theorem struck_add_two {i m : Nat} (odd : i % 2 = 1) (three : 3 ≤ i) :
    Struck (i + 2) m ↔ Struck i m ∨ i * i ≤ m ∧ i ∣ m := by
  constructor
  · rintro (small | ⟨d, two, below, divides, root⟩)
    · exact Or.inl (Or.inl small)
    · rcases (by omega : d < i ∨ d = i ∨ d = i + 1) with earlier | same | next
      · exact Or.inl (Or.inr ⟨d, two, earlier, divides, root⟩)
      · exact Or.inr ⟨same ▸ root, same ▸ divides⟩
      · have even : 2 ∣ d := by omega
        have four : 4 ≤ d * d := Nat.mul_le_mul two two
        exact Or.inl (Struck.of_even three (even.trans divides) (four.trans root))
  · rintro (struck | ⟨root, divides⟩)
    · exact struck.mono (by omega)
    · exact Or.inr ⟨i, by omega, by omega, divides, root⟩

theorem struck_or_odd_multiple {i m : Nat} (odd : i % 2 = 1) (three : 3 ≤ i) :
    Struck i m ∨ i * i ≤ m ∧ 2 * i ∣ m - i * i ↔ Struck i m ∨ i * i ≤ m ∧ i ∣ m := by
  refine ⟨Or.imp_right fun ⟨root, divides⟩ => ⟨root, ?_⟩, ?_⟩
  · have multiple : i ∣ m - i * i := (Dvd.intro_left 2 rfl).trans divides
    exact (Nat.dvd_sub_iff_left root (Dvd.intro i rfl)).mp multiple
  · rintro (struck | ⟨root, q, rfl⟩)
    · exact Or.inl struck
    · rcases Nat.mod_two_eq_zero_or_one q with even | uneven
      · have divides : 2 ∣ i * q := Dvd.dvd.mul_left (Nat.dvd_of_mod_eq_zero even) i
        have nine : 3 * 3 ≤ i * i := Nat.mul_le_mul three three
        exact Or.inl (Struck.of_even three divides (by omega))
      · have gap : 2 ∣ q - i := by
          have le := Nat.le_of_mul_le_mul_left root (by omega)
          omega
        refine Or.inr ⟨root, ?_⟩
        rw [← Nat.mul_sub, Nat.mul_comm 2]
        exact Nat.mul_dvd_mul_left i gap

theorem struck_iff_not_prime {i m : Nat} (past : Nat.sqrt m < i) : Struck i m ↔ ¬ m.Prime := by
  constructor
  · rintro (small | ⟨d, two, -, divides, root⟩) prime
    · exact absurd prime.two_le (by omega)
    · rcases prime.eq_one_or_self_of_dvd d divides with one | same
      · omega
      · have larger : 2 * d ≤ d * d := Nat.mul_le_mul_right d two
        omega
  · intro composite
    by_cases small : m < 2
    · exact Or.inl small
    have square := Nat.minFac_sq_le_self (by omega) composite
    have factor := Nat.minFac_prime (by omega : m ≠ 1)
    rw [pow_two] at square
    refine Or.inr ⟨m.minFac, factor.two_le, ?_, m.minFac_dvd, square⟩
    exact lt_of_le_of_lt (Nat.le_sqrt.mpr square) past

theorem strike_sieved {i : Nat} {marks : List Bool} (fits : F < 2 ^ 31) (odd : i % 2 = 1)
    (three : 3 ≤ i) (inside : i ≤ Nat.sqrt F) (sieved : Sieved F i marks) :
    ∃ next, strike F marks i = some next ∧ Sieved F (i + 2) next := by
  have square : i * i ≤ F := Nat.le_sqrt.mp inside
  have twice : 2 * i ≤ i * i := Nat.mul_le_mul_right i (by omega)
  have below : i ≤ F := by omega
  rcases sieved with ⟨length, exact⟩
  rw [strike]
  by_cases open' : marks[i]? = some false
  · rcases mark_loop length (by omega : 0 < 2 * i) (by omega) (by omega : 0 < i * i) with
      ⟨final, reached, size, struck⟩
    rw [if_pos open', Nat.mod_eq_of_lt (by omega), Nat.mod_eq_of_lt (by omega)]
    refine ⟨final, reached, size, fun m le => ?_⟩
    rw [struck m le, exact m le, struck_or_odd_multiple odd three, struck_add_two odd three]
  · have closed : Struck i i := by
      rw [← exact i below]
      rcases hit : marks[i]? with _ | flag
      · rw [List.getElem?_eq_none_iff] at hit
        omega
      · cases flag
        · exact absurd hit open'
        · rfl
    refine ⟨marks, if_neg open', length, fun m le => ?_⟩
    rw [exact m le, struck_add_two odd three]
    refine ⟨Or.inl, fun either => either.elim id fun ⟨root, divides⟩ => ?_⟩
    rcases closed with small | ⟨d, two, earlier, divisor, small⟩
    · omega
    · exact Or.inr ⟨d, two, earlier, divisor.trans divides, by omega⟩

private theorem replicate_marks (three : 3 ≤ F) {m : Nat} (le : m ≤ F) :
    (((List.replicate (F + 1) false).set 0 true).set 1 true)[m]? = some true ↔ m < 2 := by
  rw [List.getElem?_set]
  by_cases one : 1 = m
  · rw [if_pos one, List.length_set, List.length_replicate, if_pos (by omega)]
    exact iff_of_true rfl (by omega)
  rw [if_neg one, List.getElem?_set]
  by_cases zero : 0 = m
  · rw [if_pos zero, List.length_replicate, if_pos (by omega)]
    exact iff_of_true rfl (by omega)
  · rw [if_neg zero, List.getElem?_replicate, if_pos (by omega)]
    exact iff_of_false (by decide) (by omega)

theorem sieve_eq (three : 3 ≤ F) (fits : F < 2 ^ 31) : ∃ marks, sieve F = some marks ∧
      ∀ m ≤ F, marks[m]? = some false ↔ m.Prime := by
  have root := Nat.sqrt_le_self F
  have length : (((List.replicate (F + 1) false).set 0 true).set 1 true).length = F + 1 := by
    rw [List.length_set, List.length_set, List.length_replicate]
  rcases mark_loop length two_pos (by omega) (by decide : 0 < 4) with
    ⟨evens, marked, size, exact⟩
  have sieved : Sieved F 3 evens := by
    refine ⟨size, fun m le => ?_⟩
    rw [exact m le, replicate_marks three le]
    refine or_congr_right ⟨fun ⟨four, even⟩ => ⟨2, le_rfl, by decide, by omega, four⟩, ?_⟩
    rintro ⟨d, two, below, divides, square⟩
    have same : d = 2 := by omega
    subst same
    exact ⟨square, by omega⟩
  rcases strideLoop_induct (fun i marks => i % 2 = 1 ∧ 3 ≤ i ∧ Sieved F i marks) two_pos
    (by omega : Nat.sqrt F + 2 < 2 ^ 32)
    (fun i marks inside ⟨odd, least, sieved⟩ =>
      (strike_sieved fits odd least inside sieved).imp
        fun next ⟨struck, later⟩ => ⟨struck, by omega, by omega, later⟩)
    F ⟨rfl, le_rfl, sieved⟩ (by omega) with ⟨stop, marks, reached, past, -, -, size, exact⟩
  refine ⟨marks, by rw [sieve, marked, Option.bind_some, reached], fun m le => ?_⟩
  have struck := (exact m le).trans
    (struck_iff_not_prime (lt_of_le_of_lt (Nat.sqrt_le_sqrt le) past))
  rcases inside : marks[m]? with _ | flag
  · rw [List.getElem?_eq_none_iff] at inside
    omega
  · rw [inside, Option.some_inj] at struck
    rw [Option.some_inj, ← not_iff_not, ← struck, Bool.not_eq_false]

end Sieve

/-! ## The entries -/

section Populate

variable {N : UInt512} {F : Nat}

def Belongs (N : UInt512) (p : Nat) : Prop :=
  p.Prime ∧ p ≠ 2 ∧ jacobiSym N.toNat p = 1

instance (N : UInt512) : DecidablePred (Belongs N) :=
  fun _ => inferInstanceAs (Decidable (_ ∧ _ ∧ _))

def SmallRoot (N : UInt512) (p r : BitVec 32) : Prop :=
  0 < r.toNat ∧ r.toNat ≤ p.toNat / 2 ∧ r.toNat ^ 2 ≡ N.toNat [MOD p.toNat]

theorem Belongs.isSquare {p : Nat} (belongs : Belongs N p) :
    IsSquare (N.toNat : ZMod p) ∧ (N.toNat : ZMod p) ≠ 0 := by
  rcases belongs with ⟨prime, -, symbol⟩
  have field : Fact p.Prime := ⟨prime⟩
  have square := ZMod.isSquare_of_jacobiSym_eq_one symbol
  rw [Int.cast_natCast] at square
  refine ⟨square, fun zero => ?_⟩
  rw [← jacobiSym.legendreSym.to_jacobiSym, (legendreSym.eq_zero_iff p _).mpr] at symbol
  · exact absurd symbol zero_ne_one
  · rwa [Int.cast_natCast]

theorem smallRoot_of_isRoot {p root : BitVec 32} (belongs : Belongs N p.toNat)
    (isRoot : TonelliShanks.IsRoot p.toNat (N.toNat % p.toNat) root.toNat) :
    SmallRoot N p (if root > p >>> 1 then p - root else root) := by
  rcases belongs.isSquare with ⟨square, nonzero⟩
  rcases isRoot with ⟨lt, root_of, -⟩
  rw [ZMod.natCast_mod] at root_of
  have squared : (root.toNat : ZMod p.toNat) ^ 2 = N.toNat := root_of square
  have odd : p.toNat % 2 = 1 := belongs.1.eq_two_or_odd.resolve_left belongs.2.1
  have positive : root.toNat ≠ 0 := by
    intro zero
    rw [zero, Nat.cast_zero, zero_pow two_ne_zero] at squared
    exact nonzero squared.symm
  have half : root > p >>> 1 ↔ p.toNat / 2 < root.toNat := by
    rw [gt_iff_lt, BitVec.lt_def, BitVec.toNat_ushiftRight, Nat.shiftRight_one]
  by_cases above : root > p >>> 1
  · have upper := half.mp above
    have subtracted : (p - root).toNat = p.toNat - root.toNat := BitVec.toNat_sub_of_le lt.le
    rw [if_pos above, SmallRoot, subtracted]
    refine ⟨by omega, by omega, (ZMod.natCast_eq_natCast_iff _ _ _).mp ?_⟩
    rw [Nat.cast_pow, Nat.cast_sub lt.le, ZMod.natCast_self, zero_sub, neg_sq, squared]
  · have lower := mt half.mpr above
    rw [if_neg above]
    refine ⟨by omega, by omega, (ZMod.natCast_eq_natCast_iff _ _ _).mp ?_⟩
    rw [Nat.cast_pow, squared]

def Populated (N : UInt512) (p : Nat) (entries : Entries) : Prop :=
  entries.1.map BitVec.toNat = (List.range p).filter (Belongs N ·) ∧
    List.Forall₂ (SmallRoot N) entries.1 entries.2

theorem populated_succ_iff {p : Nat} {entries : Entries} (foreign : ¬ Belongs N p) :
    Populated N (p + 1) entries ↔ Populated N p entries := by
  refine and_congr_left fun _ => ?_
  rw [List.range_succ, List.filter_append, List.filter_singleton, decide_eq_false foreign,
    cond_false, List.append_nil]

theorem Populated.push {p root : BitVec 32} {entries : Entries}
    (populated : Populated N p.toNat entries) (belongs : Belongs N p.toNat)
    (small : SmallRoot N p root) :
    Populated N (p.toNat + 1) (entries.1 ++ [p], entries.2 ++ [root]) := by
  refine ⟨?_, List.rel_append populated.2 (List.Forall₂.cons small List.Forall₂.nil)⟩
  rw [List.range_succ, List.filter_append, List.filter_singleton, decide_eq_true belongs,
    List.map_append, populated.1, cond_true, List.map_singleton]

theorem populate_eq {marks : List Bool} {entries : Entries} {p : Nat} (odd : p % 2 = 1)
    (fits : p < 2 ^ 32) (exact : marks[p]? = some false ↔ p.Prime)
    (populated : Populated N p entries) :
    ∃ next, populate N marks entries p = some next ∧ Populated N (p + 1) next := by
  have word : (BitVec.ofNat 32 p).toNat = p := by
    rw [BitVec.toNat_ofNat, Nat.mod_eq_of_lt fits]
  have nonzero : BitVec.ofNat 32 p ≠ 0 := by
    intro zero
    rw [BitVec.toNat_eq, word] at zero
    have positive : p = 0 := zero
    omega
  have reduced := N.toNat_modUInt32 nonzero
  have symbol : jacobi (N.modUInt32 (BitVec.ofNat 32 p)) (BitVec.ofNat 32 p) =
      some (jacobiSym N.toNat p) := by
    rw [jacobi, jacobiWord_eq (by decide) (by rw [word]; exact odd), reduced, word,
      Int.natCast_mod, ← jacobiSym.mod_left]
  rw [populate]
  by_cases prime : p.Prime
  · rw [if_pos (exact.mpr prime)]
    dsimp only
    rw [symbol, Option.bind_some]
    by_cases one : jacobiSym N.toNat p = 1
    · have belongs : Belongs N (BitVec.ofNat 32 p).toNat := by
        rw [word]
        exact ⟨prime, by omega, one⟩
      rcases tonelliShanks_eq belongs.1 (N.modUInt32 (BitVec.ofNat 32 p)) with
        ⟨root, returned, isRoot⟩
      rw [reduced] at isRoot
      rw [if_pos one, returned]
      refine ⟨_, rfl, ?_⟩
      have pushed := Populated.push (word.symm ▸ populated) belongs
        (smallRoot_of_isRoot belongs isRoot)
      rwa [word] at pushed
    · exact ⟨entries, if_neg one, (populated_succ_iff fun belongs => one belongs.2.2).mpr populated⟩
  · exact ⟨entries, if_neg (mt exact.mp prime),
      (populated_succ_iff fun belongs => prime belongs.1).mpr populated⟩

end Populate

/-- The primes that belong, in ascending order, and a small root for each. -/
theorem generateFactorBase_eq (N : UInt512) {F : BitVec 32} (three : 3 ≤ F.toNat)
    (fits : F.toNat < 2 ^ 31) :
    ∃ data, generateFactorBase N F = some data ∧
      data.factorBase.map BitVec.toNat = (List.range (F.toNat + 1)).filter (Belongs N ·) ∧
      List.Forall₂ (SmallRoot N) data.factorBase data.rootN ∧
      data.size.toNat = data.factorBase.length := by
  rcases sieve_eq three fits with ⟨marks, sieved, exact⟩
  have even : ∀ {p}, p % 2 = 0 → ¬ Belongs N p := fun {p} divides belongs =>
    belongs.2.1 (belongs.1.eq_two_or_odd.resolve_right (by omega))
  have start : Populated N 3 ([], []) := by
    have none : Populated N 0 ([], []) := ⟨rfl, List.Forall₂.nil⟩
    exact (populated_succ_iff (even rfl)).mpr ((populated_succ_iff
      fun one => Nat.not_prime_one one.1).mpr ((populated_succ_iff (even rfl)).mpr none))
  have keeps : ∀ p entries, p ≤ F.toNat → p % 2 = 1 ∧ p ≤ F.toNat + 2 ∧ Populated N p entries →
        ∃ next, populate N marks entries p = some next ∧
          (p + 2) % 2 = 1 ∧ p + 2 ≤ F.toNat + 2 ∧ Populated N (p + 2) next := by
    rintro p entries le ⟨odd, -, populated⟩
    rcases populate_eq odd (by omega) (exact p le) populated with ⟨next, moved, later⟩
    exact ⟨next, moved, by omega, by omega, (populated_succ_iff (even (by omega))).mpr later⟩
  rcases strideLoop_induct _ two_pos (by omega : F.toNat + 2 < 2 ^ 32) keeps F.toNat
    ⟨rfl, by omega, start⟩ (by omega) with ⟨stop, entries, reached, past, odd, near, populated⟩
  have whole : Populated N (F.toNat + 1) entries := by
    rcases (by omega : stop = F.toNat + 1 ∨ stop = F.toNat + 1 + 1) with last | beyond
    · exact last ▸ populated
    · exact (populated_succ_iff (even (by omega))).mp (beyond ▸ populated)
  have count : entries.1.length ≤ F.toNat + 1 := by
    rw [← List.length_map (f := BitVec.toNat), whole.1]
    exact (List.length_filter_le _ _).trans List.length_range.le
  refine ⟨_, by rw [generateFactorBase, sieved, Option.bind_some, reached]; rfl, whole.1,
    whole.2, ?_⟩
  rw [BitVec.toNat_ofNat, Nat.mod_eq_of_lt (by omega)]

end FactorBase

open FactorBase TonelliShanks in
/-- The factor base is exact, and both root functions return a root where there is one. -/
theorem generateFactorBase_exact :
    (∀ (N : UInt512) (F : BitVec 32), 3 ≤ F.toNat → F.toNat < 2 ^ 31 →
      ∃ data, generateFactorBase N F = some data ∧ data.factorBase.map BitVec.toNat =
          (List.range (F.toNat + 1)).filter (Belongs N ·) ∧
        List.Forall₂ (SmallRoot N) data.factorBase data.rootN ∧
        data.size.toNat = data.factorBase.length) ∧
      (∀ n p : BitVec 32, p.toNat.Prime →
        ∃ r, tonelliShanks n p = some r ∧ IsRoot p.toNat n.toNat r.toNat) ∧
      ∀ n p : BitVec 64, p.toNat.Prime →
        ∃ r, tonelliShanksU64 n p = some r ∧ IsRoot p.toNat n.toNat r.toNat :=
  ⟨fun N _ three fits => generateFactorBase_eq N three fits,
    fun n _ prime => tonelliShanks_eq prime n, fun n _ prime => tonelliShanksU64_eq prime n⟩

open FactorBase TonelliShanks in
/-- A bound of forty, a prime whose predecessor is a power of two, and the prime two. -/
theorem generateFactorBase_exact_forty :
    (∃ data, generateFactorBase (UInt512.ofUInt32 15347) 40 = some data ∧
      List.Forall₂ (SmallRoot (UInt512.ofUInt32 15347)) data.factorBase data.rootN) ∧
      (∃ r, tonelliShanks 13 17 = some r ∧ IsRoot 17 13 r.toNat) ∧
      ∃ r, tonelliShanksU64 1 2 = some r ∧ IsRoot 2 1 r.toNat := by
  refine ⟨?_, generateFactorBase_exact.2.1 13 17 (by decide),
    generateFactorBase_exact.2.2 1 2 Nat.prime_two⟩
  rcases generateFactorBase_exact.1 (UInt512.ofUInt32 15347) 40 (by decide) (by decide) with
    ⟨data, returned, -, roots, -⟩
  exact ⟨data, returned, roots⟩

end CudaMpqs
