import CoEdit.Document.History
import CoEdit.Proofs.Document.Shape
import CoEdit.Proofs.Document.Writable

/-!
# Finite numbers and sums that are not

Numbers in records are finite, but an edit may add two finite numbers whose sum is not, and nothing checks it
(`brimming_overflows`). This is the only way in which a document can come by a number that is not finite: so
long as no sum that is made on the way is infinite, a document with finite numbers keeps them finite, and
whatever takes an edit back can be made, written and read again (`Reachable.finite_run`). Sums are also made by
operations that are refused, up to the edit that is refused and again when the edits before it are taken back.
-/
namespace CoEdit
namespace Document

variable {doc next : Document} {edit : Edit} {edits : List Edit} {done records : List Applied}
  {operations front : List Operation}

/-! ## What is tried -/

/-- The document after an edit was tried. -/
def attempt (doc : Document) (edit : Edit) : Document :=
  match doc.applyEdit edit with
  | .ok (_, next) => next
  | .error _ | .overflow => doc

/-- The edits that are tried when `done` is rolled back, each with the document that it meets. -/
def triedBack (doc : Document) : List Applied → List (Document × Edit)
  | [] => []
  | record :: rest => (doc, record.inverse) :: (doc.attempt record.inverse).triedBack rest

/-- The edits that are tried when edits are applied after `done`, each with the document that it meets: those up
to the first that is refused, and then the inverses that take the others back. -/
def tried (doc : Document) (done : List Applied) : List Edit → List (Document × Edit)
  | [] => []
  | edit :: rest =>
      (doc, edit) ::
        match doc.applyEdit edit with
        | .ok (record, next) => next.tried (record.toList ++ done) rest
        | .error _ => doc.triedBack done
        | .overflow => []

/-- The edits that are tried when operations are applied, whether they are taken or refused. -/
def triedAll (doc : Document) : List Operation → List (Document × Edit)
  | [] => []
  | operation :: rest => doc.tried [] operation.edits ++ (doc.apply operation).2.triedAll rest

theorem triedAll_prefix_append (doc : Document) (front back : List Operation) :
    doc.triedAll front <+: doc.triedAll (front ++ back) := by
  induction front generalizing doc with
  | nil => exact List.nil_prefix
  | cons operation rest ih =>
      rw [List.cons_append, triedAll, triedAll]
      exact (List.prefix_append_right_inj _).2 (ih _)

theorem rollBack_cons (doc : Document) (record : Applied) (rest : List Applied) :
    doc.rollBack (record :: rest) = (doc.attempt record.inverse).rollBack rest := by
  rfl

/-! ## Documents stay writable -/

/-- A record whose inverse can be made and written. -/
def Retractable (record : Applied) : Prop :=
  record.inverse.change.Writable ∧ record.inverse.inert = false

theorem Sound.attempt (hdoc : doc.Sound) (hregular : edit.change.Regular) : (doc.attempt edit).Sound := by
  unfold Document.attempt
  split
  · next happly => exact hdoc.applyEdit hregular happly
  · exact hdoc
  · exact hdoc

theorem Writable.attempt (h : doc.Writable) (hdoc : doc.Sound) (hedit : edit.change.Writable)
    (hsum : doc.overflows edit = false) : (doc.attempt edit).Writable := by
  unfold Document.attempt
  split
  · next happly => exact (h.applyEdit_iff hdoc hedit happly).2 hsum
  · exact h
  · exact h

theorem Writable.rollBack (h : doc.Writable) (hdoc : doc.Sound)
    (hdone : ∀ record ∈ done, Retractable record)
    (hsums : ∀ p ∈ doc.triedBack done, p.1.overflows p.2 = false) : (doc.rollBack done).Writable := by
  induction done generalizing doc with
  | nil => exact h
  | cons record rest ih =>
      rw [List.forall_mem_cons] at hdone
      rw [triedBack, List.forall_mem_cons] at hsums
      rw [rollBack_cons]
      exact ih (h.attempt hdoc hdone.1.1 hsums.1) (hdoc.attempt hdone.1.1.legal.regular) hdone.2 hsums.2

/-- Edits in a row leave a document that can be written, whether they are all taken or taken back, and so can
what takes back those that are taken. -/
theorem Writable.applyEdits (h : doc.Writable) (hdoc : doc.Sound)
    (hdone : ∀ record ∈ done, Retractable record) (hedits : ∀ edit ∈ edits, edit.change.Writable)
    (hsums : ∀ p ∈ doc.tried done edits, p.1.overflows p.2 = false) :
    (doc.applyEdits done edits).2.Writable ∧ ∀ records, (doc.applyEdits done edits).1 = .ok records →
      ∀ record ∈ records, Retractable record := by
  induction edits generalizing doc done with
  | nil =>
      refine ⟨h, ?_⟩
      rintro records ⟨⟩
      exact fun record hrecord => hdone record (List.mem_reverse.1 hrecord)
  | cons edit rest ih =>
      rw [List.forall_mem_cons] at hedits
      rw [tried, List.forall_mem_cons] at hsums
      cases happly : doc.applyEdit edit with
      | error e =>
          rw [happly] at hsums
          rw [applyEdits_of_error happly]
          exact ⟨h.rollBack hdoc hdone hsums.2, nofun⟩
      | overflow =>
          rw [applyEdits_of_overflow happly]
          exact ⟨h, nofun⟩
      | ok answer =>
          obtain ⟨record, next⟩ := answer
          rw [happly] at hsums
          rw [applyEdits_of_ok happly]
          refine ih ((h.applyEdit_iff hdoc hedits.1 happly).2 hsums.1)
            (hdoc.applyEdit hedits.1.legal.regular happly) ?_ hedits.2 hsums.2
          cases record with
          | none => exact hdone
          | some record =>
              exact List.forall_mem_cons.2 ⟨h.inverse_applyEdit hdoc hedits.1 happly, hdone⟩

end Document

/-! ## Whole histories -/

/-- Takes one step after the other, whether it is taken or refused. -/
def History.run (history : History) (operations : List Operation) : History :=
  operations.foldl (fun history operation => (history.apply operation).2) history

theorem History.document_apply (history : History) (operation : Operation) :
    (history.apply operation).2.document = (history.document.apply operation).2 := by
  unfold History.apply
  split <;> next happly => rw [happly]

/-- A step that is taken is the newest one, and one that is refused is not among the steps. -/
theorem History.mem_steps_apply {history : History} {operation : Operation} {records : List Applied}
    (h : records ∈ (history.apply operation).2.steps) :
    (history.document.apply operation).1 = .ok records ∨ records ∈ history.steps := by
  unfold History.apply at h
  split at h
  · next taken next happly =>
      rw [happly]
      exact (List.mem_cons.1 h).imp (fun heq => congrArg Result.ok heq.symm) id
  · exact .inr h
  · exact .inr h

namespace Document

theorem Writable.run {history : History} (h : history.document.Writable) (hdoc : history.document.Sound)
    (hsteps : ∀ records ∈ history.steps, ∀ record ∈ records, Retractable record)
    (hedits : ∀ operation ∈ operations, ∀ edit ∈ operation.edits, edit.change.Writable)
    (hsums : ∀ p ∈ history.document.triedAll operations, p.1.overflows p.2 = false) :
    (history.run operations).document.Writable ∧ (history.run operations).document.Sound ∧
      ∀ records ∈ (history.run operations).steps, ∀ record ∈ records, Retractable record := by
  induction operations generalizing history with
  | nil => exact ⟨h, hdoc, hsteps⟩
  | cons operation rest ih =>
      rw [List.forall_mem_cons] at hedits
      rw [triedAll, List.forall_mem_append] at hsums
      have hnone : ∀ record ∈ ([] : List Applied), Retractable record := fun _ hrecord =>
        absurd hrecord List.not_mem_nil
      obtain ⟨hnext, hrecords⟩ := h.applyEdits hdoc hnone hedits.1 hsums.1
      have hsound : (history.document.apply operation).2.Sound :=
        hdoc.applyEdits (fun record hrecord => (hnone record hrecord).1.legal.regular)
          fun edit hedit => (hedits.1 edit hedit).legal.regular
      rw [← History.document_apply] at hsound hsums
      rw [← apply, ← History.document_apply] at hnext
      refine ih hnext hsound (fun records hmem => ?_) hedits.2 hsums.2
      rcases History.mem_steps_apply hmem with htaken | hmem
      · exact hrecords records htaken
      · exact hsteps records hmem

/-- So long as operations make no sum that is too large, the numbers of a document are finite after each of
them, and whatever takes an edit back passes the check of new edits and is read as it was written. -/
theorem Reachable.finite_run (hdoc : doc.Reachable) (hfinite : doc.snapshot.firstNonFinite? = none)
    (hdated : doc.snapshot.Dated)
    (hedits : ∀ operation ∈ operations, ∀ edit ∈ operation.edits, edit.change.Writable)
    (hsums : ∀ p ∈ doc.triedAll operations, p.1.overflows p.2 = false)
    (hfront : front <+: operations) :
    ((History.start doc).run front).document.snapshot.firstNonFinite? = none ∧
      ∀ records ∈ ((History.start doc).run front).steps, ∀ record ∈ records,
        Edit.make record.inverse.target record.inverse.change = .ok record.inverse ∧
          Edit.ofRecord record.inverse.toRecord = .ok record.inverse := by
  obtain ⟨back, rfl⟩ := hfront
  have hstart : (History.start doc).document.Writable := hdoc.sound.writable_iff.2 ⟨hfinite, hdated⟩
  obtain ⟨hwritable, hsound, hrecords⟩ := hstart.run hdoc.sound nofun
    (fun operation hoperation => hedits operation (List.mem_append_left back hoperation))
    fun p hp => hsums p ((triedAll_prefix_append doc front back).subset hp)
  refine ⟨(hsound.writable_iff.1 hwritable).1, fun records hmem record hrecord => ?_⟩
  obtain ⟨hchange, hactive⟩ := hrecords records hmem record hrecord
  have hsame : record.inverse.withInert false = record.inverse := by
    rw [← hactive]
    rfl
  exact ⟨hsame ▸ Edit.make_of_legal hchange.legal,
    Edit.ofRecord_toRecord ⟨hchange.legal.valid, hchange.worded⟩⟩

def brim : Operation :=
  .compound [
    ⟨"total", .number (.set (Float.ofBits 0x7fefffffffffffff)), false⟩,
    ⟨"total", .number (.delta (Float.ofBits 0xffefffffffffffff)), false⟩,
    ⟨"rows", .array (.replace 0 (.mk "row" (.date (-1)))), false⟩]

theorem finite_run_sheet :
    (((History.start sheet).run [brim, overreach]).document.snapshot.firstNonFinite? = none) ∧
      ∀ records ∈ ((History.start sheet).run [brim, overreach]).steps, ∀ record ∈ records,
        Edit.make record.inverse.target record.inverse.change = .ok record.inverse ∧
          Edit.ofRecord record.inverse.toRecord = .ok record.inverse := by
  have hlegal : ∀ operation ∈ [brim, overreach], ∀ edit ∈ operation.edits, edit.change.Legal := by
    decide +kernel
  have hworded : ∀ operation ∈ [brim, overreach], ∀ edit ∈ operation.edits, edit.change.Worded := by
    decide +kernel
  have hsums : ∀ p ∈ sheet.triedAll [brim, overreach], p.1.overflows p.2 = false := by
    decide +kernel
  exact Reachable.finite_run reachable_sheet rfl (by decide +kernel)
    (fun operation hoperation edit hedit =>
      ⟨hlegal operation hoperation edit hedit, hworded operation hoperation edit hedit⟩) hsums
    List.prefix_rfl

/-! ## A sum that is too large -/

def brimming : Document where
  root := "total"
  nodes := [("total", ⟨none, .number (Float.ofBits 0x7fefffffffffffff)⟩)]

theorem reachable_brimming : brimming.Reachable := by
  have hmade : ofElement (.mk "total" (.number (Float.ofBits 0x7fefffffffffffff))) = .ok brimming := rfl
  exact .ofElement (by decide) hmade

def double : Operation :=
  .discrete ⟨"total", .number (.delta (Float.ofBits 0x7fefffffffffffff)), false⟩

def clear : Operation :=
  .discrete ⟨"total", .number (.set 0), false⟩

/-- The number can be doubled, although the sum is not finite, and then cleared; but what takes the clearing
back cannot be made as a new edit. -/
theorem brimming_overflows : brimming.Reachable ∧ brimming.snapshot.firstNonFinite? = none ∧
    (∀ operation ∈ [double, clear], ∀ edit ∈ operation.edits, edit.change.Legal) ∧
    ((History.start brimming).run [double]).document.snapshot.firstNonFinite?.isSome = true ∧
    ∃ record, ((History.start brimming).run [double, clear]).steps.head? = some [record] ∧
      Edit.make record.inverse.target record.inverse.change =
        .error (.nonFiniteNumber .numberSet (Float.ofBits 0x7ff0000000000000)) :=
  ⟨reachable_brimming, by decide +kernel, by decide +kernel, by decide +kernel, _, rfl, by rfl⟩

end Document
end CoEdit
