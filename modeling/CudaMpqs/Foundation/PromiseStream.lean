import Mathlib.Data.List.Basic

/-! # Promises over a stream

An in-order connection carries data frames and, between them, reports that are
kept in a queue of their own. A report may promise something about the data
before it; the first report may promise something else than the later ones. -/

namespace CudaMpqs.PromiseStream

variable {Frame Data Report : Type}

def dataOf (data? : Frame → Option (List Data)) (wire : List Frame) : List Data :=
  wire.flatMap fun frame => (data? frame).getD []

def Promised (data? : Frame → Option (List Data)) (promise : Bool → List Data → Report → Prop) :
    Bool → List Data → List Frame → List Report → Prop
  | _, _, [], reports => reports = []
  | first, known, frame :: wire, reports =>
    match data? frame with
    | some items => Promised data? promise first (known ++ items) wire reports
    | none =>
      ∃ report rest, reports = report :: rest ∧ promise first known report ∧
        Promised data? promise false known wire rest

variable {data? : Frame → Option (List Data)}
  {promise weaker : Bool → List Data → Report → Prop} {first : Bool}
  {known more : List Data} {wire : List Frame} {reports : List Report} {frame : Frame}

theorem dataOf_concat (wire : List Frame) (frame : Frame) :
    dataOf data? (wire ++ [frame]) = dataOf data? wire ++ (data? frame).getD [] := by
  simp [dataOf]

theorem dataOf_cons (frame : Frame) (wire : List Frame) :
    dataOf data? (frame :: wire) = (data? frame).getD [] ++ dataOf data? wire := by
  simp [dataOf]

theorem promised_data {items : List Data} (isData : data? frame = some items) :
    Promised data? promise first known (frame :: wire) reports ↔
      Promised data? promise first (known ++ items) wire reports := by
  simp only [Promised, isData]

theorem promised_report (isReport : data? frame = none) :
    Promised data? promise first known (frame :: wire) reports ↔
      ∃ report rest, reports = report :: rest ∧ promise first known report ∧
        Promised data? promise false known wire rest := by
  simp only [Promised, isReport]

theorem Promised.mono
    (weakens : ∀ first known more report, known ⊆ more → promise first known report →
      weaker first more report)
    (promised : Promised data? promise first known wire reports)
    (subset : known ⊆ more) : Promised data? weaker first more wire reports := by
  induction wire generalizing first known more reports with
  | nil => exact promised
  | cons frame wire induction =>
    cases kind : data? frame with
    | some items =>
      refine (promised_data kind).mpr (induction ((promised_data kind).mp promised)
        (List.append_subset.mpr ⟨List.subset_append_of_subset_left _ subset,
          List.subset_append_right _ _⟩))
    | none =>
      rcases (promised_report kind).mp promised with ⟨report, rest, same, holds, later⟩
      exact (promised_report kind).mpr ⟨report, rest, same,
        weakens first known more report subset holds, induction later subset⟩

theorem Promised.sendData {items : List Data} (isData : data? frame = some items)
    (promised : Promised data? promise first known wire reports) :
    Promised data? promise first known (wire ++ [frame]) reports := by
  induction wire generalizing first known reports with
  | nil => exact (promised_data isData).mpr promised
  | cons head wire induction =>
    rw [List.cons_append]
    cases kind : data? head with
    | some earlier =>
      exact (promised_data kind).mpr (induction ((promised_data kind).mp promised))
    | none =>
      rcases (promised_report kind).mp promised with ⟨report, rest, same, holds, later⟩
      exact (promised_report kind).mpr ⟨report, rest, same, holds, induction later⟩

/-- A report may promise what is known once all data before it has arrived. -/
theorem Promised.sendReport {report : Report} (isReport : data? frame = none)
    (promised : Promised data? promise first known wire reports)
    (holds : promise (first && reports.isEmpty) (known ++ dataOf data? wire) report) :
    Promised data? promise first known (wire ++ [frame]) (reports ++ [report]) := by
  induction wire generalizing first known reports with
  | nil =>
    have empty : reports = [] := promised
    subst empty
    simp only [dataOf, List.flatMap_nil, List.append_nil, List.isEmpty_nil,
      Bool.and_true] at holds
    exact (promised_report isReport).mpr ⟨report, [], rfl, holds, rfl⟩
  | cons head wire induction =>
    rw [List.cons_append]
    cases kind : data? head with
    | some earlier =>
      rw [dataOf_cons, kind, Option.getD_some, ← List.append_assoc] at holds
      exact (promised_data kind).mpr
        (induction ((promised_data kind).mp promised) holds)
    | none =>
      rcases (promised_report kind).mp promised with
        ⟨front, rest, rfl, frontHolds, later⟩
      rw [dataOf_cons, kind, Option.getD_none, List.nil_append, List.isEmpty_cons,
        Bool.and_false] at holds
      exact (promised_report kind).mpr ⟨front, rest ++ [report], rfl, frontHolds,
        induction later (by rwa [Bool.false_and])⟩

end CudaMpqs.PromiseStream
