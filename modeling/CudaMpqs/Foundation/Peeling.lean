import Mathlib.Data.Finset.Card
import Mathlib.Order.Bounds.Basic
import CudaMpqs.Foundation.Transition

/-! # Peeling

A row that alone has some column is taken away, and so on. Every order ends with the
same rows: the greatest set in which no column stands alone. -/

namespace CudaMpqs.Peeling

open Transition

variable {Row Column : Type} (has : Row → Column → Prop)
  [∀ r c, Decidable (has r c)]

def SingletonFree (rows : Finset Row) : Prop :=
  ∀ c, (rows.filter (has · c)).card ≠ 1

structure Alone (rows : Finset Row) (r : Row) : Prop where
  member : r ∈ rows
  column : ∃ c, has r c ∧ ∀ other ∈ rows, has other c → other = r

variable {has} {rows core : Finset Row} {r : Row}

theorem SingletonFree.exists_other (free : SingletonFree has core) {c : Column}
    (member : r ∈ core) (hasColumn : has r c) : ∃ other ∈ core, other ≠ r ∧ has other c := by
  by_contra none
  apply free c
  rw [Finset.card_eq_one]
  refine ⟨r, Finset.eq_singleton_iff_unique_mem.mpr ⟨Finset.mem_filter.mpr ⟨member, hasColumn⟩, ?_⟩⟩
  intro other isOther
  rcases Finset.mem_filter.mp isOther with ⟨inside, otherHas⟩
  by_contra different
  exact none ⟨other, inside, different, otherHas⟩

theorem SingletonFree.not_mem_of_alone (free : SingletonFree has core) (subset : core ⊆ rows)
    (alone : Alone has rows r) : r ∉ core := by
  intro member
  rcases alone.column with ⟨c, hasColumn, only⟩
  rcases free.exists_other member hasColumn with ⟨other, inside, different, otherHas⟩
  exact different (only other (subset inside) otherHas)

theorem singletonFree_of_forall_not_alone (none : ∀ r, ¬ Alone has rows r) :
    SingletonFree has rows := by
  intro c one
  rcases Finset.card_eq_one.mp one with ⟨r, isSingle⟩
  have isRow : r ∈ rows.filter (has · c) := isSingle ▸ Finset.mem_singleton_self r
  rcases Finset.mem_filter.mp isRow with ⟨member, hasColumn⟩
  refine none r ⟨member, c, hasColumn, fun other inside otherHas => ?_⟩
  have isOther : other ∈ rows.filter (has · c) := Finset.mem_filter.mpr ⟨inside, otherHas⟩
  rw [isSingle] at isOther
  exact Finset.mem_singleton.mp isOther

def IsCore (has : Row → Column → Prop) [∀ r c, Decidable (has r c)]
    (rows core : Finset Row) : Prop :=
  IsGreatest {part | part ⊆ rows ∧ SingletonFree has part} core

/-! ## Orders -/

section Orders

variable [DecidableEq Row]

def peel (rows : Finset Row) (order : List Row) : Finset Row := run Finset.erase rows order

def Peels (has : Row → Column → Prop) (rows : Finset Row) (order : List Row) : Prop :=
  Meets Finset.erase (Alone has) rows order

theorem Peels.subset_peel {order : List Row} (peels : Peels has rows order)
    (subset : core ⊆ rows) (free : SingletonFree has core) : core ⊆ peel rows order := by
  refine @Meets.invariant _ _ Finset.erase (Alone has) (fun rows => core ⊆ rows) ?_ _ _
    peels subset
  intro rows r alone inside
  exact Finset.subset_erase.mpr ⟨inside, free.not_mem_of_alone inside alone⟩

private theorem peel_subset (rows : Finset Row) (order : List Row) : peel rows order ⊆ rows :=
  @run_invariant _ _ Finset.erase (fun left => left ⊆ rows)
    (fun _ r inside => (Finset.erase_subset r _).trans inside) _ Finset.Subset.rfl order

theorem Peels.isCore {order : List Row} (peels : Peels has rows order)
    (free : SingletonFree has (peel rows order)) : IsCore has rows (peel rows order) :=
  ⟨⟨peel_subset rows order, free⟩, fun _ part => peels.subset_peel part.1 part.2⟩

theorem exists_peels (has : Row → Column → Prop) [∀ r c, Decidable (has r c)]
    (rows : Finset Row) : ∃ order, Peels has rows order ∧ IsCore has rows (peel rows order) := by
  suffices exists_free : ∃ order, Peels has rows order ∧ SingletonFree has (peel rows order) by
    rcases exists_free with ⟨order, peels, free⟩
    exact ⟨order, peels, peels.isCore free⟩
  induction rows using Finset.strongInduction with
  | H rows induction =>
    by_cases some : ∃ r, Alone has rows r
    · rcases some with ⟨r, alone⟩
      rcases induction _ (Finset.erase_ssubset alone.member) with ⟨order, peels, free⟩
      exact ⟨r :: order, ⟨alone, peels⟩, free⟩
    · exact ⟨[], trivial, singletonFree_of_forall_not_alone (not_exists.mp some)⟩

end Orders

theorem IsCore.unique {core' : Finset Row} (isCore : IsCore has rows core)
    (isCore' : IsCore has rows core') : core = core' :=
  IsGreatest.unique isCore isCore'

end CudaMpqs.Peeling
