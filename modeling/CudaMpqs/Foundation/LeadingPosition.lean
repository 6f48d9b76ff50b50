import Mathlib.Algebra.Module.Pi
import Mathlib.LinearAlgebra.Span.Basic

/-! # Vectors with distinct leading positions

A vector leads at the first position where it does not vanish. Nonzero
combinations of vectors that lead at distinct positions lead at one of them. -/

namespace CudaMpqs.LeadingPosition

variable {K ι : Type} [Field K] [LinearOrder ι]

structure Leads (v : ι → K) (position : ι) : Prop where
  entry : v position ≠ 0
  before : ∀ earlier < position, v earlier = 0

theorem Leads.ne_zero {v : ι → K} {position : ι} (leads : Leads v position) : v ≠ 0 := by
  intro zero
  exact leads.entry (congrFun zero position)

theorem Leads.unique {v : ι → K} {left right : ι} (leftLeads : Leads v left)
    (rightLeads : Leads v right) : left = right := by
  rcases lt_trichotomy left right with below | same | above
  · exact absurd (rightLeads.before left below) leftLeads.entry
  · exact same
  · exact absurd (leftLeads.before right above) rightLeads.entry

theorem Leads.smul {v : ι → K} {position : ι} (leads : Leads v position) {scalar : K}
    (nonzero : scalar ≠ 0) : Leads (scalar • v) position where
  entry := mul_ne_zero nonzero leads.entry
  before := by
    intro earlier below
    rw [Pi.smul_apply, leads.before earlier below, smul_zero]

theorem Leads.add_later {v w : ι → K} {position later : ι} (leads : Leads v position)
    (other : Leads w later) (order : position < later) : Leads (v + w) position where
  entry := by
    rw [Pi.add_apply, other.before position order, add_zero]
    exact leads.entry
  before := by
    intro earlier below
    rw [Pi.add_apply, leads.before earlier below, other.before earlier (below.trans order),
      add_zero]

/-- The nonzero vectors of the span lead where a generator leads. -/
theorem leads_of_mem_span {basis : List (ι × (ι → K))}
    (leads : ∀ member ∈ basis, Leads member.2 member.1)
    (distinct : (basis.map Prod.fst).Nodup) {v : ι → K}
    (member : v ∈ Submodule.span K {w | w ∈ basis.map Prod.snd}) :
    v = 0 ∨ ∃ position ∈ basis.map Prod.fst, Leads v position := by
  induction basis generalizing v with
  | nil =>
    left
    simpa using member
  | cons first basis induction =>
    have split : {w | w ∈ (first :: basis).map Prod.snd} =
        insert first.2 {w | w ∈ basis.map Prod.snd} := by
      ext w
      simp
    rw [split, Submodule.mem_span_insert] at member
    rcases member with ⟨scalar, rest, restMember, rfl⟩
    rw [List.map_cons, List.nodup_cons] at distinct
    have restLeads := induction (fun other inside => leads other (List.mem_cons_of_mem _ inside))
      distinct.2 restMember
    have firstLeads := leads first List.mem_cons_self
    by_cases zero : scalar = 0
    · rw [zero, zero_smul, zero_add]
      rcases restLeads with vanishes | ⟨position, inside, restLeads⟩
      · exact Or.inl vanishes
      · exact Or.inr ⟨position, List.mem_cons_of_mem _ inside, restLeads⟩
    · right
      have scaled := firstLeads.smul zero
      rcases restLeads with vanishes | ⟨position, inside, restLeads⟩
      · rw [vanishes, add_zero]
        exact ⟨first.1, List.mem_cons_self, scaled⟩
      · rcases lt_trichotomy first.1 position with below | same | above
        · exact ⟨first.1, List.mem_cons_self, scaled.add_later restLeads below⟩
        · rw [← same] at inside
          exact absurd inside distinct.1
        · rw [add_comm]
          exact ⟨position, List.mem_cons_of_mem _ inside, restLeads.add_later scaled above⟩

/-- A vector that leads elsewhere is independent of the basis. -/
theorem not_mem_span_of_leads {basis : List (ι × (ι → K))}
    (leads : ∀ member ∈ basis, Leads member.2 member.1)
    (distinct : (basis.map Prod.fst).Nodup) {v : ι → K} {position : ι}
    (vectorLeads : Leads v position) (fresh : position ∉ basis.map Prod.fst) :
    v ∉ Submodule.span K {w | w ∈ basis.map Prod.snd} := by
  intro member
  rcases leads_of_mem_span leads distinct member with zero | ⟨other, inside, otherLeads⟩
  · exact vectorLeads.ne_zero zero
  · rw [vectorLeads.unique otherLeads] at fresh
    exact fresh inside

end CudaMpqs.LeadingPosition
