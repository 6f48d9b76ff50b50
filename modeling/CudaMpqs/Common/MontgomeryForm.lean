import Mathlib.Data.ZMod.Basic
import CudaMpqs.Common.Montgomery

/-! # Montgomery form

What a number in Montgomery form stands for, as a residue, and the operations
of `montgomery.cuh` on such numbers. -/

namespace CudaMpqs.Montgomery

variable {context : Montgomery}

structure Represents (context : Montgomery) (a : UInt512)
    (residue : ZMod context.N.toNat) : Prop where
  bound : a.toNat < context.N.toNat
  cast : (a.toNat : ZMod context.N.toNat) = UInt512.cardinality * residue

theorem Valid.isUnit_cardinality (valid : context.Valid) :
    IsUnit (UInt512.cardinality : ZMod context.N.toNat) := by
  apply (ZMod.isUnit_iff_coprime _ _).mpr
  rw [← UInt512.two_pow_eq_cardinality rfl]
  apply Nat.Coprime.pow_left
  exact Nat.coprime_two_left.mpr (Nat.odd_iff.mpr valid.odd)

theorem Valid.represents_transform (valid : context.Valid) (a : UInt512) :
    context.Represents (context.transform a) a.toNat where
  bound := valid.transform_lt a
  cast := by
    rw [valid.toNat_transform, ZMod.natCast_mod, Nat.cast_mul]

theorem Valid.represents_one (valid : context.Valid) :
    context.Represents (context.transform (UInt512.ofUInt32 1)) 1 := by
  have one := valid.represents_transform (UInt512.ofUInt32 1)
  rwa [UInt512.toNat_ofUInt32, show (1 : BitVec 32).toNat = 1 from rfl, Nat.cast_one] at one

theorem Represents.mul (valid : context.Valid) {a b : UInt512}
    {left right : ZMod context.N.toNat} (aRepresents : context.Represents a left)
    (bRepresents : context.Represents b right) :
    context.Represents (context.mul a b) (left * right) := by
  rcases mul_spec valid.inverts valid.nonzero a bRepresents.bound.le with
    ⟨bound, congruent⟩
  refine ⟨bound, valid.isUnit_cardinality.mul_left_cancel ?_⟩
  have product := (ZMod.natCast_eq_natCast_iff _ _ _).mpr congruent
  rw [Nat.cast_mul, Nat.cast_mul, aRepresents.cast, bRepresents.cast] at product
  rw [product]
  ring

theorem Represents.pow (valid : context.Valid) (base exp : UInt512) :
    context.Represents (context.pow (context.transform base) exp) (base.toNat ^ exp.toNat) where
  bound := (valid.pow_spec exp (valid.transform_lt base)).1
  cast := by
    have power := (ZMod.natCast_eq_natCast_iff _ _ _).mpr
      (valid.pow_transform base exp)
    rwa [Nat.cast_mul, Nat.cast_pow] at power

variable {residue : ZMod context.N.toNat}

theorem Represents.negate {a : UInt512} (represents : context.Represents a residue) :
    context.Represents (a.negateModInplace context.N) (-residue) := by
  have negated := UInt512.toNat_negateModInplace represents.bound
  refine ⟨?_, ?_⟩
  · rw [negated]
    exact Nat.mod_lt _ (Nat.zero_lt_of_lt represents.bound)
  · rw [negated, ZMod.natCast_mod, Nat.cast_sub represents.bound.le,
      ZMod.natCast_self, represents.cast]
    ring

theorem Represents.reduce (valid : context.Valid) {a : UInt512}
    (represents : context.Represents a residue) :
    ((context.reduce a).toNat : ZMod context.N.toNat) = residue := by
  have congruent := (ZMod.natCast_eq_natCast_iff _ _ _).mpr
    (valid.reduce_spec a).2
  rw [Nat.cast_mul, represents.cast] at congruent
  exact valid.isUnit_cardinality.mul_left_cancel congruent

theorem Represents.foldl {Item : Type} {step : UInt512 → Item → UInt512}
    {residueOf : Item → ZMod context.N.toNat}
    (multiplies : ∀ a residue item, context.Represents a residue →
      context.Represents (step a item) (residue * residueOf item))
    {a : UInt512} (represents : context.Represents a residue) (items : List Item) :
    context.Represents (items.foldl step a) (residue * (items.map residueOf).prod) := by
  induction items generalizing a residue with
  | nil => simpa using represents
  | cons item items induction =>
    have rest := induction (multiplies a residue item represents)
    rwa [mul_assoc, ← List.prod_cons, ← List.map_cons] at rest

end CudaMpqs.Montgomery
