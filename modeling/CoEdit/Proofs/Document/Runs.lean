import CoEdit.Proofs.Document.Apply

/-!
# Runs of edits

A run leads from document to document by edits that are all taken, with the records of those that did
something. An operation is taken exactly if its edits run (`apply_eq_ok_iff`).
-/
namespace CoEdit
namespace Document

/-- A run of edits that are all taken, with the records of those that did something. -/
inductive Runs : Document → List Edit → List Applied → Document → Prop
  | nil (doc : Document) : Runs doc [] [] doc
  | cons {doc next last : Document} {edit : Edit} {edits : List Edit} {record : Option Applied}
      {records : List Applied} (taken : doc.applyEdit edit = .ok (record, next))
      (rest : Runs next edits records last) :
      Runs doc (edit :: edits) (record.toList ++ records) last

variable {doc last : Document} {edits : List Edit} {records done all : List Applied}

namespace Runs

theorem sound (h : doc.Runs edits records last) (hdoc : doc.Sound)
    (hregular : ∀ edit ∈ edits, edit.change.Regular) : last.Sound := by
  induction h with
  | nil doc => exact hdoc
  | cons taken rest ih =>
      rw [List.forall_mem_cons] at hregular
      exact ih (hdoc.applyEdit hregular.1 taken) hregular.2

theorem applyEdits_eq (h : doc.Runs edits records last) (done : List Applied) :
    doc.applyEdits done edits = (.ok (done.reverse ++ records), last) := by
  induction h generalizing done with
  | nil doc => rw [applyEdits, List.append_nil]
  | @cons doc next last edit edits record records taken rest ih =>
      rw [applyEdits_of_ok taken, ih]
      cases record <;> simp

end Runs

theorem exists_runs_of_applyEdits (h : doc.applyEdits done edits = (.ok all, last)) :
    ∃ records, all = done.reverse ++ records ∧ doc.Runs edits records last := by
  induction edits generalizing doc done with
  | nil =>
      cases h
      exact ⟨[], (List.append_nil _).symm, .nil _⟩
  | cons edit rest ih =>
      cases happly : doc.applyEdit edit with
      | error e =>
          rw [applyEdits_of_error happly] at h
          cases h
      | overflow =>
          rw [applyEdits_of_overflow happly] at h
          cases h
      | ok answer =>
          obtain ⟨record, next⟩ := answer
          rw [applyEdits_of_ok happly] at h
          obtain ⟨records, rfl, hruns⟩ := ih h
          refine ⟨record.toList ++ records, ?_, .cons happly hruns⟩
          cases record <;> simp

/-- An operation is taken, with some records, exactly if its edits run. -/
theorem apply_eq_ok_iff {operation : Operation} :
    doc.apply operation = (.ok records, last) ↔ doc.Runs operation.edits records last := by
  constructor
  · intro h
    obtain ⟨records, rfl, hruns⟩ := exists_runs_of_applyEdits h
    exact hruns
  · exact fun h => h.applyEdits_eq []

end Document
end CoEdit
