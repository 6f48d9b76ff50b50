import CudaMpqs.Lingen.SolutionSpan

/-! # Insertion into the packed basis

`insert_into_basis` works on packed words. The pivot is found by the first word
that does not vanish and its trailing zeros, and the search for it starts again
after every XOR with a stored vector. -/

namespace CudaMpqs.Lingen.PackedBasis

open LeadingPosition

abbrev Packed := List (BitVec 64)

/-- `SolutionReconstructor::BasisVector`. The row count is an `int`, hence every
pivot fits one. -/
structure BasisVector where
  pivot : Nat
  vec : Packed
deriving DecidableEq

/-- The scan for the pivot from word `i` on; `none` is `-1`. -/
def pivotFrom (i : Nat) : Packed → Option Nat
  | [] => none
  | word :: words =>
    if word ≠ 0 then some (i * 64 + word.ctz.toNat) else pivotFrom (i + 1) words

def xorInto (vec other : Packed) : Packed := vec.zipWith (· ^^^ ·) other

/-- The `while` loop; `none` when the turns run out before it ends. -/
def reduce (basis : List BasisVector) : Nat → Packed → Option Packed
  | 0, _ => none
  | turns + 1, vec =>
    match pivotFrom 0 vec with
    | none => some vec
    | some pivot =>
      match basis.find? fun b => b.pivot = pivot with
      | none => some vec
      | some b => reduce basis turns (xorInto vec b.vec)

/-- The result of a call and what it leaves in its two references. -/
structure Insertion where
  accepted : Bool
  basis : List BasisVector
  vec : Packed
deriving DecidableEq

def insertIntoBasis (basis : List BasisVector) (turns : Nat) (vec : Packed) : Option Insertion :=
  (reduce basis turns vec).map fun vec =>
    match pivotFrom 0 vec with
    | none => ⟨false, basis, vec⟩
    | some pivot => ⟨true, basis ++ [⟨pivot, vec⟩], vec⟩

example : insertIntoBasis [⟨65, [0, 6]⟩, ⟨3, [8, 2]⟩] 3 [8, 0] =
    some ⟨true, [⟨65, [0, 6]⟩, ⟨3, [8, 2]⟩, ⟨66, [0, 4]⟩], [0, 4]⟩ := by decide +kernel

/-! ## Rows of a packed vector -/

def bitOf (vec : Packed) (r : Nat) : Bool := (vec.getD (r / 64) 0).getLsbD (r % 64)

def rows (words : Nat) (vec : Packed) : Vec (64 * words) :=
  fun r => if bitOf vec r then 1 else 0

@[simp] theorem bitOf_cons_low (word : BitVec 64) (vec : Packed) {r : Nat} (low : r < 64) :
    bitOf (word :: vec) r = word.getLsbD r := by
  simp [bitOf, Nat.div_eq_of_lt low, Nat.mod_eq_of_lt low]

@[simp] theorem bitOf_cons_high (word : BitVec 64) (vec : Packed) (r : Nat) :
    bitOf (word :: vec) (r + 64) = bitOf vec r := by
  simp [bitOf]

theorem pivotFrom_spec : ∀ (vec : Packed) (i : Nat), match pivotFrom i vec with
    | none => ∀ r, bitOf vec r = false
    | some pivot => ∃ r, pivot = i * 64 + r ∧ r < 64 * vec.length ∧ bitOf vec r = true ∧
        ∀ earlier < r, bitOf vec earlier = false
  | [], _ => by simp [pivotFrom, bitOf]
  | word :: vec, i => by
    rw [pivotFrom]
    by_cases zero : word = 0
    · have rest := pivotFrom_spec vec (i + 1)
      have low : ∀ r < 64, bitOf (word :: vec) r = false := by
        intro r below
        simp [below, zero]
      have carried : ∀ r, 64 ≤ r → bitOf (word :: vec) r = bitOf vec (r - 64) := by
        intro r above
        rw [← bitOf_cons_high word vec (r - 64), Nat.sub_add_cancel above]
      rw [if_neg (not_not.mpr zero)]
      cases scanned : pivotFrom (i + 1) vec with
      | none =>
        rw [scanned] at rest
        intro r
        rcases Nat.lt_or_ge r 64 with below | above
        · exact low r below
        · rw [carried r above, rest]
      | some pivot =>
        rw [scanned] at rest
        rcases rest with ⟨r, position, inside, set, clear⟩
        refine ⟨r + 64, by omega, by rw [List.length_cons]; omega, by simpa using set, ?_⟩
        intro earlier below
        rcases Nat.lt_or_ge earlier 64 with under | above
        · exact low earlier under
        · rw [carried earlier above]
          exact clear _ (by omega)
    · have small : word.ctz.toNat < 64 := by
        simpa [BitVec.lt_def] using BitVec.ctz_lt_iff_ne_zero.mpr zero
      rw [if_pos zero]
      refine ⟨word.ctz.toNat, rfl, by rw [List.length_cons]; omega, ?_, ?_⟩
      · rw [bitOf_cons_low word vec small]
        exact BitVec.getLsbD_true_ctz_of_ne_zero zero
      · intro earlier below
        rw [bitOf_cons_low word vec (by omega)]
        exact BitVec.getLsbD_false_of_lt_ctz below

variable {vec other : Packed}

private theorem bitOf_xorInto (sized : vec.length = other.length) (r : Nat) :
    bitOf (xorInto vec other) r = (bitOf vec r ^^ bitOf other r) := by
  rcases Nat.lt_or_ge (r / 64) vec.length with inside | outside
  · simp [bitOf, xorInto, List.getD_eq_getElem?_getD, inside, sized ▸ inside]
  · simp [bitOf, xorInto, List.getD_eq_getElem?_getD, outside, sized ▸ outside]

theorem rows_xorInto {words : Nat} (sized : vec.length = other.length) :
    rows words (xorInto vec other) = rows words vec + rows words other := by
  funext r
  rw [Pi.add_apply, rows, rows, rows, bitOf_xorInto sized]
  cases bitOf vec r <;> cases bitOf other r <;> decide

@[simp] theorem xorInto_length (sized : vec.length = other.length) :
    (xorInto vec other).length = vec.length := by
  simp [xorInto, sized]

private theorem rows_leads {words pivot : Nat} (sized : vec.length = words)
    (found : pivotFrom 0 vec = some pivot) :
    ∃ inside : pivot < 64 * words, Leads (rows words vec) ⟨pivot, inside⟩ := by
  have spec := pivotFrom_spec vec 0
  rw [found] at spec
  rcases spec with ⟨r, position, inside, set, clear⟩
  have same : pivot = r := by omega
  subst same
  refine ⟨sized ▸ inside, ?_, ?_⟩
  · simp [rows, set]
  · intro earlier below
    simp [rows, clear earlier below]

theorem firstBit_rows {words : Nat} (sized : vec.length = words) :
    (firstBit (rows words vec)).map Fin.val = pivotFrom 0 vec := by
  cases found : pivotFrom 0 vec with
  | none =>
    have clear := pivotFrom_spec vec 0
    rw [found] at clear
    simp [firstBit, rows, clear]
  | some pivot =>
    rcases rows_leads sized found with ⟨inside, leads⟩
    cases first : firstBit (rows words vec) with
    | none => exact absurd (firstBit_none first) leads.ne_zero
    | some position => simp [(firstBit_leads first).unique leads]

/-! ## The packed basis stands for an echelon -/

structure Stands (words : Nat) (b : BasisVector) (member : Lingen.BasisVector (64 * words)) :
    Prop where
  pivot : b.pivot = member.pivot
  sized : b.vec.length = words
  rows : rows words b.vec = member.vec

variable {words : Nat} {basis : List BasisVector}
  {echelon : List (Lingen.BasisVector (64 * words))}

section

variable (stands : List.Forall₂ (Stands words) basis echelon)

include stands

theorem find_stands (pivot : Fin (64 * words)) :
    Option.Rel (Stands words) (basis.find? fun b => b.pivot = pivot.val)
      (echelon.find? fun member => member.pivot = pivot) := by
  induction stands with
  | nil => exact Option.Rel.none
  | @cons b member _ _ head _ induction =>
    by_cases same : member.pivot = pivot
    · have packed : b.pivot = pivot.val := by rw [head.pivot, same]
      simpa [List.find?_cons, same, packed] using Option.Rel.some head
    · have packed : b.pivot ≠ pivot.val := by
        rw [head.pivot]
        exact fun equal => same (Fin.ext equal)
      simpa [List.find?_cons, same, packed] using induction

theorem pivots_stands :
    basis.map BasisVector.pivot = (echelon.map Lingen.BasisVector.pivot).map Fin.val := by
  induction stands with
  | nil => rfl
  | cons head _ induction => simp [head.pivot, induction]

theorem vectors_stands :
    basis.map (rows words ∘ BasisVector.vec) = echelon.map Lingen.BasisVector.vec := by
  induction stands with
  | nil => rfl
  | cons head _ induction => simp [head.rows, induction]

theorem lowest_stands : ∀ b ∈ basis, bitOf b.vec b.pivot = true ∧
      ∀ earlier < b.pivot, bitOf b.vec earlier = false := by
  induction stands with
  | nil => simp
  | @cons b member _ _ head _ induction =>
    rw [List.forall_mem_cons]
    refine ⟨?_, induction⟩
    have leads := member.leads
    rw [← head.rows] at leads
    rw [head.pivot]
    constructor
    · simpa [rows] using leads.entry
    · intro earlier below
      have clear := leads.before ⟨earlier, below.trans member.pivot.isLt⟩ below
      simpa [rows] using clear

/-- Every XOR raises the pivot, so the loop ends, and it ends where the loop over
`GF(2)` does. -/
theorem reduce_rows (turns limit : Nat) (sized : vec.length = words) (started : 0 < turns)
    (enough : ∀ position, firstBit (rows words vec) = some position →
      64 * words < position.val + turns ∧ 64 * words ≤ position.val + limit) :
    ∃ reduced, reduce basis turns vec = some reduced ∧ reduced.length = words ∧
      rows words reduced = reduceBy echelon limit (rows words vec) := by
  induction turns generalizing limit vec with
  | zero => omega
  | succ turns induction =>
    have scanned := firstBit_rows sized
    rw [reduce]
    cases first : firstBit (rows words vec) with
    | none =>
      rw [first] at scanned
      refine ⟨vec, by rw [← scanned]; rfl, sized, ?_⟩
      cases limit <;> simp [reduceBy, first]
    | some position =>
      rcases enough position first with ⟨turnsLeft, limitLeft⟩
      have inside := position.isLt
      rw [first] at scanned
      rw [← scanned]
      cases limit with
      | zero => omega
      | succ limit =>
        have found := find_stands stands position
        simp only [Option.map_some, reduceBy, first]
        cases packed : basis.find? fun b => b.pivot = position.val with
        | none =>
          cases member : echelon.find? fun member => member.pivot = position with
          | none => exact ⟨vec, rfl, sized, rfl⟩
          | some member => simp [packed, member] at found
        | some b =>
          cases taken : echelon.find? fun member => member.pivot = position with
          | none => simp [packed, taken] at found
          | some member =>
            rw [packed, taken, Option.rel_some_some] at found
            have aligned : vec.length = b.vec.length := sized.trans found.sized.symm
            have same : member.pivot = position := by
              simpa using List.find?_some taken
            have leads : Leads member.vec position := same ▸ member.leads
            dsimp only
            rw [← found.rows, ← rows_xorInto aligned]
            apply induction limit (by simp [aligned, found.sized]) (by omega)
            intro later laterFirst
            have rises : position < later := by
              apply leads_add_cancels (firstBit_leads first) leads
              rw [← found.rows, ← rows_xorInto aligned]
              exact firstBit_leads laterFirst
            rw [Fin.lt_def] at rises
            omega

end

theorem reduce_more {turns more : Nat} (le : turns ≤ more) {vec reduced : Packed}
    (ended : reduce basis turns vec = some reduced) : reduce basis more vec = some reduced := by
  induction turns generalizing more vec with
  | zero => cases ended
  | succ turns induction =>
    cases more with
    | zero => omega
    | succ more =>
      rw [reduce] at ended ⊢
      cases scanned : pivotFrom 0 vec with
      | none => simpa [scanned] using ended
      | some pivot =>
        cases found : basis.find? fun b => b.pivot = pivot with
        | none => simpa [scanned, found] using ended
        | some b =>
          simp only [scanned, found] at ended ⊢
          exact induction (by omega) ended

/-! ## One call -/

theorem accepts_iff (distinct : (echelon.map Lingen.BasisVector.pivot).Nodup)
    (v : Vec (64 * words)) :
    (Lingen.insertIntoBasis echelon v).isSome ↔ v ∉ spanOf echelon := by
  have spanned := spanOf_offered echelon v
  have member : v ∈ spanOf (offered echelon v) := by
    rw [spanned]
    exact Submodule.mem_sup_right (Submodule.mem_span_singleton_self v)
  cases inserted : Lingen.insertIntoBasis echelon v with
  | none =>
    rw [offered, inserted, Option.toList_none, List.append_nil] at member
    simp [member]
  | some b =>
    have difference := @reduceBy_sub_mem _ echelon (64 * words) v
    rw [← (insertIntoBasis_spec inserted).1] at difference
    have fresh := reduceBy_fresh (64 * words) (fun position _ => Nat.le_add_left _ _)
      (insertIntoBasis_spec inserted).2
    have outside : b.vec ∉ spanOf echelon := by
      have leads : ∀ member ∈ echelon.map fun member => (member.pivot, member.vec),
          Leads member.2 member.1 := by simpa using fun member _ => member.leads
      have independent := not_mem_span_of_leads leads (by simpa [Function.comp_def] using distinct)
        b.leads (by simpa using fresh)
      simpa [spanOf, Function.comp_def] using independent
    simp only [Option.isSome_some, true_iff]
    intro inside
    apply outside
    simpa using Submodule.add_mem _ difference inside

theorem offered_distinct (distinct : (echelon.map Lingen.BasisVector.pivot).Nodup)
    (v : Vec (64 * words)) :
    ((offered echelon v).map Lingen.BasisVector.pivot).Nodup := by
  -- nothing is asked of the operator here
  have trivial : Echelon (0 : Vec (64 * words) →+ Vec (64 * words)) echelon :=
    ⟨fun _ _ => rfl, distinct⟩
  cases inserted : Lingen.insertIntoBasis echelon v with
  | none => simpa [offered, inserted] using distinct
  | some b => simpa [offered, inserted] using (trivial.insert rfl inserted).distinct

theorem insertIntoBasis_stands (stands : List.Forall₂ (Stands words) basis echelon)
    (sized : vec.length = words) :
    ∃ result, (∀ turns, 64 * words < turns → insertIntoBasis basis turns vec = some result) ∧
      result.accepted = (Lingen.insertIntoBasis echelon (rows words vec)).isSome ∧
      List.Forall₂ (Stands words) result.basis (offered echelon (rows words vec)) := by
  rcases reduce_rows stands (64 * words + 1) (64 * words) sized (by omega)
    (fun position _ => by omega) with ⟨reduced, ended, reducedSized, same⟩
  have scanned := firstBit_rows reducedSized
  refine ⟨_, fun turns enough => by
    rw [insertIntoBasis, reduce_more enough ended, Option.map_some], ?_⟩
  cases inserted : Lingen.insertIntoBasis echelon (rows words vec) with
  | none =>
    have zero : firstBit (reduceBy echelon (64 * words) (rows words vec)) = none := by
      rw [Lingen.insertIntoBasis] at inserted
      split at inserted
      next missing => exact missing
      next => cases inserted
    rw [same, zero, Option.map_none] at scanned
    rw [← scanned, offered, inserted, Option.toList_none, List.append_nil]
    exact ⟨rfl, stands⟩
  | some b =>
    rcases insertIntoBasis_spec inserted with ⟨vector, pivot⟩
    rw [same, pivot, Option.map_some] at scanned
    rw [← scanned, offered, inserted]
    refine ⟨rfl, List.rel_append stands (List.Forall₂.cons ⟨rfl, reducedSized, ?_⟩ .nil)⟩
    rw [same, vector]

/-! ## Any sequence of calls -/

structure Calls where
  offered : List Packed
  accepted : List Packed
  basis : List BasisVector

def Calls.start : Calls := ⟨[], [], []⟩

def Calls.offer (turns : Nat) (calls : Calls) (vec : Packed) : Option Calls :=
  (insertIntoBasis calls.basis turns vec).map fun result =>
    ⟨calls.offered ++ [vec],
      if result.accepted then calls.accepted ++ [vec] else calls.accepted, result.basis⟩

def span (words : Nat) (vectors : List Packed) : Submodule (ZMod 2) (Vec (64 * words)) :=
  Submodule.span (ZMod 2) {w | w ∈ vectors.map (rows words)}

theorem span_concat (words : Nat) (vectors : List Packed) (vec : Packed) :
    span words (vectors ++ [vec]) =
      span words vectors ⊔ Submodule.span (ZMod 2) {rows words vec} := by
  rw [span, span, ← Submodule.span_union]
  congr 1
  ext w
  simp [or_comm]

structure Calls.Reduced (words : Nat) (calls : Calls) : Prop where
  distinct : (calls.basis.map BasisVector.pivot).Nodup
  lowest : ∀ b ∈ calls.basis, bitOf b.vec b.pivot = true ∧
    ∀ earlier < b.pivot, bitOf b.vec earlier = false
  stored : span words (calls.basis.map BasisVector.vec) = span words calls.offered
  accepted : span words calls.accepted = span words calls.offered

/-- The invariant of the calls: the basis stands for an echelon. -/
structure Calls.Standing (words : Nat) (calls : Calls)
    (echelon : List (Lingen.BasisVector (64 * words))) : Prop where
  stands : List.Forall₂ (Stands words) calls.basis echelon
  distinct : (echelon.map Lingen.BasisVector.pivot).Nodup
  spanned : spanOf echelon = span words calls.offered
  accepted : span words calls.accepted = span words calls.offered

theorem Calls.Standing.reduced {calls : Calls} (standing : calls.Standing words echelon) :
    calls.Reduced words where
  distinct := by
    rw [pivots_stands standing.stands]
    exact standing.distinct.map Fin.val_injective
  lowest := lowest_stands standing.stands
  stored := by
    rw [span, List.map_map, vectors_stands standing.stands, ← standing.spanned, spanOf]
  accepted := standing.accepted

theorem Calls.Standing.offer {calls : Calls} (standing : calls.Standing words echelon)
    (sized : vec.length = words) :
    ∃ result after, (∀ turns, 64 * words < turns →
        insertIntoBasis calls.basis turns vec = some result ∧ calls.offer turns vec = some after) ∧
      (result.accepted = true ↔ rows words vec ∉ span words calls.accepted) ∧
      after.offered = calls.offered ++ [vec] ∧
      after.Standing words (Lingen.offered echelon (rows words vec)) := by
  rcases insertIntoBasis_stands standing.stands sized with ⟨result, ended, same, stands⟩
  have accepts := accepts_iff standing.distinct (rows words vec)
  rw [← same, standing.spanned, ← standing.accepted] at accepts
  refine ⟨result, _, fun turns enough => ⟨ended turns enough, by
    rw [Calls.offer, ended turns enough, Option.map_some]⟩, accepts, rfl, ?_⟩
  constructor
  · exact stands
  · exact offered_distinct standing.distinct _
  · rw [spanOf_offered, standing.spanned, span_concat]
  · rw [span_concat, ← standing.accepted]
    cases taken : result.accepted with
    | true => exact span_concat words calls.accepted vec
    | false =>
      have inside : rows words vec ∈ span words calls.accepted := by simpa [taken] using accepts
      simpa using inside

/-- Every call ends, takes a vector exactly when those accepted before do not span
it, and keeps the basis in echelon form with the span of all that was offered. -/
theorem insertIntoBasis_calls (words : Nat) (vectors : List Packed)
    (sized : ∀ vec ∈ vectors, vec.length = words) :
    ∃ calls : Calls, (∀ turns, 64 * words < turns →
        vectors.foldlM (Calls.offer turns) Calls.start = some calls) ∧
      calls.offered = vectors ∧ calls.Reduced words ∧
      ∀ vec : Packed, vec.length = words → ∃ result, (∀ turns, 64 * words < turns →
            insertIntoBasis calls.basis turns vec = some result) ∧
          (result.accepted = true ↔ rows words vec ∉ span words calls.accepted) := by
  suffices standing : ∃ calls : Calls, (∀ turns, 64 * words < turns →
      vectors.foldlM (Calls.offer turns) Calls.start = some calls) ∧
      calls.offered = vectors ∧
      ∃ echelon : List (Lingen.BasisVector (64 * words)), calls.Standing words echelon by
    rcases standing with ⟨calls, ended, same, echelon, standing⟩
    refine ⟨calls, ended, same, standing.reduced, ?_⟩
    intro vec vecSized
    rcases standing.offer vecSized with ⟨result, _, endedNext, accepts, _⟩
    exact ⟨result, fun turns enough => (endedNext turns enough).1, accepts⟩
  induction vectors using List.reverseRecOn with
  | nil =>
    refine ⟨Calls.start, fun _ _ => rfl, rfl, [], .nil, List.nodup_nil, ?_, rfl⟩
    simp [spanOf, span, Calls.start]
  | append_singleton vectors vec induction =>
    rcases induction (fun other inside => sized other (by simp [inside])) with
      ⟨calls, ended, same, echelon, standing⟩
    rcases standing.offer (sized vec (by simp)) with
      ⟨_, after, endedNext, _, offered, standingNext⟩
    refine ⟨after, ?_, by rw [offered, same], _, standingNext⟩
    intro turns enough
    simp [List.foldlM_append, ended turns enough, (endedNext turns enough).2]

/-- Two words, three vectors; the third is the sum of the first two. -/
theorem insertIntoBasis_calls_dependent : ∃ calls : Calls, (∀ turns, 64 * 2 < turns →
        [[8, 0], [8, 2], [0, 2]].foldlM (Calls.offer turns) Calls.start = some calls) ∧
      calls.offered = [[8, 0], [8, 2], [0, 2]] ∧ calls.Reduced 2 ∧
      ∀ vec : Packed, vec.length = 2 → ∃ result, (∀ turns, 64 * 2 < turns →
            insertIntoBasis calls.basis turns vec = some result) ∧
          (result.accepted = true ↔ rows 2 vec ∉ span 2 calls.accepted) :=
  insertIntoBasis_calls 2 [[8, 0], [8, 2], [0, 2]] (by simp)

end CudaMpqs.Lingen.PackedBasis
