import CoEdit.Proofs.Undo

/-!
# Refused operations

An operation is taken as a whole or refused, and one that is refused is taken back edit by edit. The
inverses are all taken (`Reachable.apply_refused`), so the same elements are attached as before and hold
the same, but for what an inverse does not restore: the place of a property that an edit removed and the
rounding of a number that an edit added to. Where no edit before the refused one did either, the document
holds the tree that it held; in general it does not (`overreach_not_restored`).
-/
namespace CoEdit
namespace Document

variable {doc after : Document} {operation : Operation} {edits : List Edit} {done : List Applied}
  {e : DocumentError}

/-- Edits are refused because one of them is, and the records of those before it are rolled back. -/
theorem exists_refused (h : doc.applyEdits done edits = (.error e, after)) :
    ∃ front failing rest records last, edits = front ++ failing :: rest ∧
      doc.applyEdits done front = (.ok records, last) ∧ last.applyEdit failing = .error e ∧
      after = last.rollBack records.reverse := by
  induction edits generalizing doc done with
  | nil => cases h
  | cons edit rest ih =>
      cases happly : doc.applyEdit edit with
      | error e' =>
          rw [applyEdits_of_error happly] at h
          cases h
          exact ⟨[], edit, rest, done.reverse, doc, rfl, rfl, happly, by rw [List.reverse_reverse]⟩
      | overflow =>
          rw [applyEdits_of_overflow happly] at h
          cases h
      | ok answer =>
          obtain ⟨record, next⟩ := answer
          rw [applyEdits_of_ok happly] at h
          obtain ⟨front, failing, back, records, last, rfl, hfront, hfailing, hafter⟩ := ih h
          exact ⟨edit :: front, failing, back, records, last, rfl,
            (applyEdits_of_ok happly front).trans hfront, hfailing, hafter⟩

/-- An operation is refused because of one of its edits. The edits before it are taken back by the
inverses of their records, none of which is refused. The document then has the elements that it had, with
the contents that they had, except that numbers to which an edit added may differ and that objects from
which an edit removed a property may list their properties in another order. -/
theorem Reachable.apply_refused (hdoc : doc.Reachable)
    (hregular : ∀ edit ∈ operation.edits, edit.change.Regular)
    (h : doc.apply operation = (.error e, after)) :
    ∃ (front rest : List Edit) (failing : Edit) (records undone : List Applied) (last : Document),
      operation.edits = front ++ failing :: rest ∧
      doc.apply (.compound front) = (.ok records, last) ∧ last.applyEdit failing = .error e ∧
      History.applyEach last (records.reverse.map Applied.inverse) =
        (.ok (undone.map some), after) ∧
      (∀ id, after.contains id = doc.contains id) ∧
      doc.Alike (fun id => ∃ edit ∈ front, edit.AddsTo id)
        (fun id => ∃ edit ∈ front, edit.RemovesFrom id) after ∧
      ((∀ edit ∈ front, edit.change.isDelta = false ∧ edit.change.prunes = false) →
        after.snapshot = doc.snapshot) := by
  obtain ⟨front, failing, rest, records, last, hedits, hfront, hfailing, rfl⟩ := exists_refused h
  have hregularFront : ∀ edit ∈ front, edit.change.Regular := fun edit hedit =>
    hregular edit (hedits ▸ List.mem_append_left _ hedit)
  obtain ⟨new, rfl, htrail, hnew⟩ := exists_trail hregularFront hfront
  have hlast := htrail.sound hdoc.sound
  obtain ⟨undone, back, hundo, hinverses, halike⟩ := htrail.exists_undone hdoc.sound hlast
    (Alike.refl last (fun _ => False) fun _ => False)
  cases hundo.rollBack_eq hinverses
  have hafter := hundo.sound hlast
  have hrestored : doc.Alike (fun id => ∃ edit ∈ front, edit.AddsTo id)
      (fun id => ∃ edit ∈ front, edit.RemovesFrom id) (last.rollBack records.reverse) := by
    refine halike.mono (fun id hid => ?_) fun id hid => ?_
    · obtain ⟨record, hrecord, hadds⟩ := hid.resolve_left not_false
      exact ⟨record.edit, hnew record hrecord, hadds⟩
    · obtain ⟨record, hrecord, hremoves⟩ := hid.resolve_left not_false
      exact ⟨record.edit, hnew record hrecord, hremoves⟩
  refine ⟨front, rest, failing, records, undone, last, hedits, hfront, hfailing,
    hinverses ▸ hundo.applyEach_eq, fun id => ?_, hrestored, fun hexact => ?_⟩
  · exact Bool.eq_iff_iff.2 (halike.contains_iff hdoc.sound hafter)
  · refine hrestored.snapshot_eq hdoc.sound hafter ?_ ?_
    · rintro id ⟨edit, hedit, -, hdelta, -⟩
      rw [(hexact edit hedit).1] at hdelta
      cases hdelta
    · rintro id ⟨edit, hedit, -, hprunes, -⟩
      rw [(hexact edit hedit).2] at hprunes
      cases hprunes

theorem apply_refused_overreach : ∃ (e : DocumentError) (after : Document)
    (front rest : List Edit) (failing : Edit) (records undone : List Applied) (last : Document),
    sheet.apply overreach = (.error e, after) ∧ overreach.edits = front ++ failing :: rest ∧
      sheet.apply (.compound front) = (.ok records, last) ∧ last.applyEdit failing = .error e ∧
      History.applyEach last (records.reverse.map Applied.inverse) =
        (.ok (undone.map some), after) ∧
      (∀ id, after.contains id = sheet.contains id) ∧
      sheet.Alike (fun id => ∃ edit ∈ front, edit.AddsTo id)
        (fun id => ∃ edit ∈ front, edit.RemovesFrom id) after := by
  have h : ∃ e after, sheet.apply overreach = (.error e, after) := ⟨_, _, rfl⟩
  obtain ⟨e, after, h⟩ := h
  obtain ⟨front, rest, failing, records, undone, last, hedits, hfront, hfailing, hundone, hcontains,
    halike, -⟩ := Reachable.apply_refused reachable_sheet regular_overreach h
  exact ⟨e, after, front, rest, failing, records, undone, last, h, hedits, hfront, hfailing, hundone,
    hcontains, halike⟩

/-- After an operation was refused, a property that it had removed is the last one, and a number that it
had added to is another one. -/
theorem overreach_not_restored : sheet.Reachable ∧ (∀ edit ∈ overreach.edits, edit.change.Legal) ∧
    ∃ e after, sheet.apply overreach = (.error e, after) ∧
      after.snapshot = .mk "sheet" (.object [
        ("total", .mk "total" (.number (0.1 + 0.2 + -0.2))),
        ("rows", .mk "rows" (.array [.mk "row" (.boolean true)])),
        ("title", .mk "title" (.string "Ab"))]) ∧
      ((0.1 : Float) + 0.2 + -0.2 == 0.1) = false ∧ (after.snapshot == sheet.snapshot) = false :=
  ⟨reachable_sheet, by decide +kernel, _, _, rfl, rfl, by decide +kernel, by decide +kernel⟩

end Document
end CoEdit
