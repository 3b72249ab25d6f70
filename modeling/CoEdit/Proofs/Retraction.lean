import CoEdit.Proofs.Convergence
import CoEdit.Proofs.Document.Passing

/-!
# Doing and undoing beside concurrent work

An operation that is done and taken back, and another operation that was made to the same document, are
reconciled like any two operations, although the inverses bring back elements that were there before
(`Reachable.roundTrip_converges`). What an inverse brings back is as it was before the operation, so the
other operation must not edit what goes in between; nor may the operation be aimed at what the other one
brings along. Neither is noticed when the two are reconciled, for an edit knows nothing of the tree in which
its target is (`roundTrip_diverges`).
-/
namespace CoEdit

/-- The operation, followed by what takes it back. -/
def Operation.roundTrip (operation : Operation) (records : List Applied) : Operation :=
  .compound (operation.edits ++ records.reverse.map Applied.inverse)

theorem Operation.mem_roundTrip {operation : Operation} {records : List Applied} {edit : Edit} :
    edit ∈ (operation.roundTrip records).edits ↔
      edit ∈ operation.edits ∨ ∃ record ∈ records, record.inverse = edit := by
  simp [roundTrip, edits]

namespace Document

variable {doc last mid back : Document} {a b : Operation} {records undone : List Applied}
  {ids : List ElementId}

/-! ## Records -/

/-- The inverse in a record is aimed at the same element, and brings along what the record lists. -/
structure Faithful (record : Applied) : Prop where
  active : record.edit.inert = false
  target : record.inverse.target = record.edit.target
  regular : record.inverse.change.Regular
  news : record.inverse.news = record.detached

theorem Trail.faithful (h : doc.Trail records last) (hdoc : doc.Sound) :
    ∀ record ∈ records, Faithful record := by
  induction h with
  | nil doc => exact fun record hrecord => absurd hrecord List.not_mem_nil
  | @cons doc next last record records regular taken rest ih =>
      refine List.forall_mem_cons.2 ⟨?_, ih (hdoc.applyEdit regular taken)⟩
      have hinverse := regular_of_applyEdit hdoc regular taken
      rcases cases_applyEdit taken with ⟨-, hnone, -⟩ | ⟨node, revision, hacted, hrecord, -⟩
      · cases hnone
      · have hback := (inverse_revise (hdoc.keyed hacted.found) regular.lawful hacted.planned).2
        have hsame := Option.some.inj hrecord
        refine ⟨hacted.active, ?_, hinverse, ?_⟩
        · rw [congrArg Applied.inverse hsame]
          rfl
        · rw [congrArg Applied.inverse hsame, congrArg Applied.detached hsame]
          exact (congrArg (List.flatMap Element.ids) hback).trans (List.flatMap_map ..)

/-! ## There and back -/

theorem passes_roundTrip (hdoc : doc.Sound) (hregular : ∀ edit ∈ a.edits, edit.change.Regular)
    (ha : doc.apply a = (.ok records, mid)) (hback : mid.Trail undone back)
    (hundone : undone.map Applied.edit = records.reverse.map Applied.inverse)
    (hstay : ∀ id ∈ ids, ∀ record ∈ records, id ∉ record.detached)
    (hattached : ∀ id ∈ ids, id ∈ aims a.edits ∨ id ∈ arrivalIds a.edits → doc.contains id = true) :
    doc.Passes ids (a.roundTrip records).edits back := by
  have hthere := (apply_eq_ok_iff.1 ha).passes hdoc hregular hstay hattached
  have hfaithful := ((apply_eq_ok_iff.1 ha).trail hregular).1.faithful hdoc
  have hnews : ∀ record ∈ undone, ∀ id ∈ ids, id ∉ record.edit.news := by
    intro record hrecord id hid
    have hmem : record.edit ∈ records.reverse.map Applied.inverse :=
      hundone ▸ List.mem_map_of_mem hrecord
    obtain ⟨done, hdone, heq⟩ := List.mem_map.1 hmem
    rw [← heq, (hfaithful done (List.mem_reverse.1 hdone)).news]
    exact hstay id hid done (List.mem_reverse.1 hdone)
  have hbackwards := hback.passes hnews
  rw [hundone] at hbackwards
  exact hthere.append hbackwards

theorem regular_roundTrip (hdoc : doc.Sound) (hregular : ∀ edit ∈ a.edits, edit.change.Regular)
    (ha : doc.apply a = (.ok records, mid)) :
    ∀ edit ∈ (a.roundTrip records).edits, edit.change.Regular := by
  intro edit hedit
  rcases Operation.mem_roundTrip.1 hedit with hedit | ⟨record, hrecord, rfl⟩
  · exact hregular edit hedit
  · exact (((apply_eq_ok_iff.1 ha).trail hregular).1.faithful hdoc record hrecord).regular

/-- A round trip does not get into the way of edits that bring along what is new to the document and to the
operation, if the operation is not aimed at that. -/
theorem clear_roundTrip {others : List Edit} (hdoc : doc.Sound)
    (hregular : ∀ edit ∈ a.edits, edit.change.Regular) (ha : doc.apply a = (.ok records, mid))
    (hregular' : ∀ edit ∈ others, edit.change.Regular)
    (hfresh : ∀ id ∈ arrivalIds others, doc.contains id = false ∧ id ∉ arrivalIds a.edits)
    (hdelta : ∀ edit ∈ others, edit.change.isDelta = false)
    (hspares : Spares (arrivalIds others) a.edits) :
    ∀ s ∈ (a.roundTrip records).edits, ∀ c ∈ others, s.Clear c := by
  intro s hs c hc
  have hall := regular_roundTrip hdoc hregular ha s hs
  obtain ⟨htrail, hedits⟩ := (apply_eq_ok_iff.1 ha).trail hregular
  have hnew {id : ElementId} (hid : id ∈ c.news) : id ∈ arrivalIds others :=
    mem_arrivalIds.2 ⟨c, hc, hid⟩
  refine ⟨⟨hall.lawful, (hregular' c hc).lawful, fun id _ hadds => ?_⟩, hall, hregular' c hc, ?_, ?_⟩
  · have hnone := hadds.2.1
    rw [hdelta c hc] at hnone
    cases hnone
  · intro id hid hidc
    obtain ⟨hout, hother⟩ := hfresh id (hnew hidc)
    rcases Operation.mem_roundTrip.1 hs with hs | ⟨record, hrecord, rfl⟩
    · exact hother (mem_arrivalIds.2 ⟨s, hs, hid⟩)
    · rw [(htrail.faithful hdoc record hrecord).news] at hid
      rcases (apply_eq_ok_iff.1 ha).detached_known hdoc hregular hrecord hid with hold | hown
      · rw [hout] at hold
        cases hold
      · exact hother hown
  · intro hactive hmem
    rcases Operation.mem_roundTrip.1 hs with hs | ⟨record, hrecord, rfl⟩
    · exact hspares s hs hactive (hnew hmem)
    · have hfaithful := htrail.faithful hdoc record hrecord
      exact hspares record.edit (hedits record hrecord) hfaithful.active
        (hfaithful.target ▸ hnew hmem)

/-- A round trip passes by what an accepted operation is aimed at, and leads to a document like the one that
it set out from. -/
theorem exists_passes_roundTrip (hdoc : doc.Sound) (hregular : ∀ edit ∈ a.edits, edit.change.Regular)
    (hregular' : ∀ edit ∈ b.edits, edit.change.Regular) (ha : doc.apply a = (.ok records, mid))
    (hb : doc.Accepts b.edits)
    (hfresh : ∀ id ∈ arrivalIds b.edits, doc.contains id = false ∧ id ∉ arrivalIds a.edits)
    (hstay : Spares (records.flatMap Applied.detached) b.edits)
    (hspares : Spares (arrivalIds b.edits) a.edits) :
    ∃ back, doc.Passes (aims b.edits) (a.roundTrip records).edits back ∧ back.Sound ∧
      doc.Alike (fun id => ∃ record ∈ records, record.edit.AddsTo id)
        (fun id => ∃ record ∈ records, record.edit.RemovesFrom id) back := by
  have htrail := ((apply_eq_ok_iff.1 ha).trail hregular).1
  have hmid := htrail.sound hdoc
  obtain ⟨undone, back, hback, hundone, halike⟩ := htrail.exists_undone hdoc hmid
    (Alike.refl mid (fun _ => False) fun _ => False)
  refine ⟨back, passes_roundTrip hdoc hregular ha hback hundone ?_ ?_, hback.sound hmid,
    halike.mono (fun _ h => h.resolve_left not_false) fun _ h => h.resolve_left not_false⟩
  · intro id hid record hrecord hgone
    obtain ⟨edit, hedit, hactive, rfl⟩ := mem_aims.1 hid
    exact hstay edit hedit hactive (List.mem_flatMap.2 ⟨record, hrecord, hgone⟩)
  · intro id hid hneeded
    refine (hb.known hdoc hregular' hid).resolve_right fun hnew => ?_
    rcases hneeded with haim | hcomes
    · obtain ⟨edit, hedit, hactive, rfl⟩ := mem_aims.1 haim
      exact hspares edit hedit hactive hnew
    · exact (hfresh id hnew).2 hcomes

theorem Alike.numeric {numbers objects : ElementId → Prop} (h : doc.Alike numbers objects last)
    (hdoc : doc.Sound) (hlast : last.Sound) (hnumbers : ∀ id, ¬numbers id) (hnumeric : doc.Numeric) :
    last.Numeric := by
  intro id node' hnode'
  have hattached := (h.contains_iff hdoc hlast).1 (Document.contains_iff.2 ⟨node', hnode'⟩)
  obtain ⟨⟨parent, content⟩, hnode⟩ := Document.contains_iff.1 hattached
  obtain ⟨⟨parent', content'⟩, hsame, halike⟩ := h.content hnode
  rw [hnode'] at hsame
  cases hsame
  have hbefore := hnumeric hnode
  cases halike with
  | refl => exact hbefore
  | number free x y => exact absurd free (hnumbers id)
  | object free perm => exact nofun

/-- An operation, followed by the inverses of its records, and another operation on the same document can be
reconciled. Each can then be applied behind the other one, and the documents show the same and hold trees that
agree, unless the tree holds a number that agrees with nothing. The operation may be any that is taken with
checked sums. The other one is accepted and brings along what is new to the document and to the operation; it does
not edit what the operation takes out, and the operation is not aimed at what it brings along. -/
theorem Reachable.roundTrip_converges (hdoc : doc.Reachable)
    (hlegal : ∀ edit ∈ a.edits ++ b.edits, edit.change.Legal)
    (ha : doc.apply a = (.ok records, mid)) (hb : doc.Accepts b.edits)
    (hfresh : ∀ id ∈ arrivalIds b.edits, doc.contains id = false ∧ id ∉ arrivalIds a.edits)
    (hdelta : ∀ edit ∈ a.edits ++ b.edits, edit.change.isDelta = false)
    (hstay : Spares (records.flatMap Applied.detached) b.edits)
    (hspares : Spares (arrivalIds b.edits) a.edits) :
    ∃ u' b' first second left right, (a.roundTrip records).transform b = .ok (u', b') ∧
      doc.Takes (a.roundTrip records) first ∧ first.Takes b' left ∧ doc.Takes b second ∧
      second.Takes u' right ∧ left.Same right ∧
      ((doc.snapshot == doc.snapshot) = true → (left.snapshot == right.snapshot) = true) := by
  rw [List.forall_mem_append] at hlegal hdelta
  have hsound := hdoc.sound
  have hregular : ∀ edit ∈ a.edits, edit.change.Regular := fun edit hedit =>
    (hlegal.1 edit hedit).regular
  have hregular' : ∀ edit ∈ b.edits, edit.change.Regular := fun edit hedit =>
    (hlegal.2 edit hedit).regular
  have hregularU := regular_roundTrip hsound hregular ha
  have hclear := clear_roundTrip hsound hregular ha hregular' hfresh hdelta.2 hspares
  obtain ⟨first, hpasses, hfirst, halike⟩ :=
    exists_passes_roundTrip hsound hregular hregular' ha hb hfresh hstay hspares
  have hnews : ∀ id ∈ aims (a.roundTrip records).edits, id ∉ arrivalIds b.edits := by
    intro id hid hmem
    obtain ⟨s, hs, hactive, rfl⟩ := mem_aims.1 hid
    obtain ⟨c, hc, hnew⟩ := mem_arrivalIds.1 hmem
    exact (hclear s hs c hc).spares hactive hnew
  obtain ⟨second, hpasses'⟩ := hb.exists_passes hnews
  obtain ⟨edits', others', hlists⟩ := hpasses.exists_transformLists hpasses' hsound hregularU
    hregular' fun s hs c hc => (hclear s hs c hc).compatible
  obtain ⟨recordsU, hrunsU⟩ := hpasses.exists_runs
  obtain ⟨recordsB, hrunsB⟩ := hpasses'.exists_runs
  obtain ⟨⟨done, left, done', right, hleft, hright, hsame⟩, -, hrebased⟩ :=
    hpasses.exists_crossing hsound hregularU hregular' hclear
      (fun c hc hactive => mem_aims.2 ⟨c, hc, hactive, rfl⟩) hrunsB hlists
  refine ⟨(a.roundTrip records).reshape edits', b.reshape others', first, second, left, right, ?_,
    ⟨recordsU, apply_eq_ok_iff.2 hrunsU⟩, ⟨done, apply_eq_ok_iff.2 ?_⟩,
    ⟨recordsB, apply_eq_ok_iff.2 hrunsB⟩, ⟨done', apply_eq_ok_iff.2 ?_⟩, hsame, fun hself => ?_⟩
  · simp [Operation.transform, hlists, bind, Except.bind, pure, Except.pure]
  · rwa [Operation.edits_reshape]
  · rwa [Operation.edits_reshape]
  · have hnumbers : ∀ id, ¬∃ record ∈ records, record.edit.AddsTo id := by
      rintro id ⟨record, hrecord, -, hadds, -⟩
      have hedit := ((apply_eq_ok_iff.1 ha).trail hregular).2 record hrecord
      rw [hdelta.1 record.edit hedit] at hadds
      cases hadds
    have hnumeric : first.Numeric :=
      halike.numeric hsound hfirst hnumbers (hsound.numeric_of_agrees hself)
    refine hsame.agrees (hnumeric.runs hfirst (fun edit hedit => ?_) hleft)
    obtain ⟨original, hmem, hleftOf⟩ := hrebased.exists_of_mem hedit
    exact hleftOf.change.legal (hlegal.2 original hmem)

/-- Puts another row in the place of the row, with its id and with something below it, and takes the title
away. -/
def exchangeRow : Operation :=
  .compound [replaceRow, ⟨"sheet", .object (.remove "title"), false⟩]

def addRow : Operation :=
  .compound [
    ⟨"rows", .array (.insert 1 (.mk "extra" (.string ""))), false⟩,
    ⟨"extra", .string (.insert 0 "x"), false⟩,
    ⟨"total", .number (.set 2), false⟩]

theorem roundTrip_converges_sheet : ∃ records mid u' b' first second left right,
    sheet.apply exchangeRow = (.ok records, mid) ∧
      (exchangeRow.roundTrip records).transform addRow = .ok (u', b') ∧
      sheet.Takes (exchangeRow.roundTrip records) first ∧ first.Takes b' left ∧
      sheet.Takes addRow second ∧ second.Takes u' right ∧ left.Same right ∧
      (left.snapshot == right.snapshot) = true := by
  obtain ⟨u', b', first, second, left, right, htransform, hfirst, hleft, hsecond, hright, hsame,
    hagrees⟩ := Reachable.roundTrip_converges reachable_sheet (a := exchangeRow) (b := addRow)
      (by decide +kernel) rfl (by decide +kernel) (by decide +kernel) (by decide +kernel)
      (by unfold Spares; decide +kernel) (by unfold Spares; decide +kernel)
  exact ⟨_, _, u', b', first, second, left, right, rfl, htransform, hfirst, hleft, hsecond, hright,
    hsame, hagrees (by decide +kernel)⟩

/-- Whether the round trip of `a` and the operation `b`, which brings along what is new only, are reconciled
and taken in either order, but lead to trees that do not agree. -/
def RoundTripDiverges (doc : Document) (a b : Operation) : Prop :=
  doc.Reachable ∧ (∀ edit ∈ a.edits ++ b.edits, edit.change.Legal) ∧ doc.Accepts b.edits ∧
    (∀ id ∈ arrivalIds b.edits, doc.contains id = false ∧ id ∉ arrivalIds a.edits) ∧
    (∀ edit ∈ a.edits ++ b.edits, edit.change.isDelta = false) ∧
    ∃ records mid u' b' first second left right, doc.apply a = (.ok records, mid) ∧
      (a.roundTrip records).transform b = .ok (u', b') ∧ doc.Takes (a.roundTrip records) first ∧
      first.Takes b' left ∧ doc.Takes b second ∧ second.Takes u' right ∧
      (left.snapshot == right.snapshot) = false

def extendText : Operation :=
  .discrete ⟨"text", .string (.insert 2 "c"), false⟩

/-- Writes into an item that is not there. -/
def writeAhead : Operation :=
  .discrete ⟨"item", .string (.insert 0 "x"), false⟩

def addItem : Operation :=
  .discrete ⟨"list", .array (.insert 0 (.mk "item" (.string ""))), false⟩

def noNumber : Document where
  root := "number"
  nodes := [("number", ⟨none, .number (0 / 0)⟩)]

theorem reachable_noNumber : noNumber.Reachable := by
  have hmade : ofElement (.mk "number" (.number (0 / 0))) = .ok noNumber := rfl
  exact .ofElement (by decide) hmade

/-- What the other operation does to an element that goes is lost when the element comes back; what the
operation does to an element before it has come is done after all; and a number that is none agrees with
nothing, not even with itself. -/
theorem roundTrip_diverges : RoundTripDiverges listOfText removeText extendText ∧
    RoundTripDiverges listOfText writeAhead addItem ∧
    RoundTripDiverges noNumber (.compound []) (.compound []) := by
  refine ⟨⟨reachable_listOfText, by decide +kernel, by decide +kernel, by decide +kernel,
    by decide +kernel, ?_⟩, ⟨reachable_listOfText, by decide +kernel, by decide +kernel,
    by decide +kernel, by decide +kernel, ?_⟩, ⟨reachable_noNumber, by decide +kernel,
    by decide +kernel, by decide +kernel, by decide +kernel, ?_⟩⟩
  · exact ⟨_, _, _, _, _, _, _, _, rfl, rfl, ⟨_, rfl⟩, ⟨_, rfl⟩, ⟨_, rfl⟩, ⟨_, rfl⟩, by decide +kernel⟩
  · exact ⟨_, _, _, _, _, _, _, _, rfl, rfl, ⟨_, rfl⟩, ⟨_, rfl⟩, ⟨_, rfl⟩, ⟨_, rfl⟩, by decide +kernel⟩
  · exact ⟨_, _, _, _, _, _, _, _, rfl, rfl, ⟨_, rfl⟩, ⟨_, rfl⟩, ⟨_, rfl⟩, ⟨_, rfl⟩, by decide +kernel⟩

end Document
end CoEdit
