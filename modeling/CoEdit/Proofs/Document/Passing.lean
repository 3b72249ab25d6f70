import CoEdit.Proofs.Confluence.Shared
import CoEdit.Proofs.Document.Crossing
import CoEdit.Proofs.Undo

/-!
# Runs beside other edits

A run that is to be reconciled with other edits of its document passes by the elements at which these are
aimed, so far as it leaves them attached and brings none of them along (`Passes`). Whether a run does so can
be told from what it records (`Runs.passes`). Two runs that pass each other by fit one shadow, as far as both
edit the same elements, and can be reconciled (`Passes.exists_transformLists`).
-/
namespace CoEdit

/-- The elements at which edits in force are aimed. -/
def aims (edits : List Edit) : List ElementId :=
  (edits.filter fun edit => !edit.inert).map Edit.target

theorem mem_aims {edits : List Edit} {id : ElementId} :
    id ∈ aims edits ↔ ∃ edit ∈ edits, edit.inert = false ∧ edit.target = id := by
  simp [aims, and_assoc]

namespace Document

variable {doc next last mid : Document} {edit : Edit} {edits : List Edit}
  {records : List Applied} {ids : List ElementId} {id : ElementId}

/-! ## Runs that pass elements by -/

/-- A run passes by elements that are attached where it needs them, and that it does not take out. -/
theorem Runs.passes (h : doc.Runs edits records last) (hdoc : doc.Sound)
    (hregular : ∀ edit ∈ edits, edit.change.Regular)
    (hstay : ∀ id ∈ ids, ∀ record ∈ records, id ∉ record.detached)
    (hattached : ∀ id ∈ ids, id ∈ aims edits ∨ id ∈ arrivalIds edits → doc.contains id = true) :
    doc.Passes ids edits last := by
  induction h with
  | nil doc => exact .nil doc
  | @cons doc next last edit edits record records taken rest ih =>
      rw [List.forall_mem_cons] at hregular
      refine .cons (fun hactive hid => ?_) ?_ taken (ih (hdoc.applyEdit hregular.1 taken) hregular.2
        (fun id hid done hdone => hstay id hid done (List.mem_append_right _ hdone))
        fun id hid hneeded => ?_)
      · exact hattached _ hid (.inl (mem_aims.2 ⟨edit, List.mem_cons_self, hactive, rfl⟩))
      · rcases cases_applyEdit taken with ⟨hidle, -⟩ | ⟨node, revision, hacted, rfl, -⟩
        · exact .inl hidle
        · refine .inr fun id hid hnews => ?_
          have hold := hattached id hid (.inr (mem_arrivalIds.2 ⟨edit, List.mem_cons_self, hnews⟩))
          have hgone := hacted.gone_of_news hdoc hregular.1 hnews hold
          exact hstay id hid _ (List.mem_append_left _ List.mem_cons_self)
            (((hacted.grafts hdoc hregular.1).mem_detached id).2 hgone)
      · refine contains_of_applyEdit hdoc hregular.1 taken (hattached id hid ?_)
          fun done hdone => hstay id hid done (List.mem_append_left _ (Option.mem_toList.2 hdone))
        refine hneeded.imp (fun haims => ?_) fun hnews => ?_
        · obtain ⟨e, he, hactive, htarget⟩ := mem_aims.1 haims
          exact mem_aims.2 ⟨e, List.mem_cons_of_mem _ he, hactive, htarget⟩
        · obtain ⟨e, he, hnew⟩ := mem_arrivalIds.1 hnews
          exact mem_arrivalIds.2 ⟨e, List.mem_cons_of_mem _ he, hnew⟩

theorem Trail.passes (h : doc.Trail records last)
    (hnews : ∀ record ∈ records, ∀ id ∈ ids, id ∉ record.edit.news) :
    doc.Passes ids (records.map Applied.edit) last := by
  induction h with
  | nil doc => exact .nil doc
  | @cons doc next last record records regular taken rest ih =>
      rw [List.forall_mem_cons] at hnews
      refine .cons (fun _ _ => ?_) (.inr hnews.1) taken (ih hnews.2)
      rcases cases_applyEdit taken with ⟨-, hnone, -⟩ | ⟨node, revision, hacted, -⟩
      · cases hnone
      · exact contains_iff.2 ⟨node, hacted.found⟩

/-- What is accepted passes by whatever it does not bring along. -/
theorem Accepts.exists_passes (h : doc.Accepts edits) (hnews : ∀ id ∈ ids, id ∉ arrivalIds edits) :
    ∃ last, doc.Passes ids edits last := by
  induction edits generalizing doc with
  | nil => exact ⟨doc, .nil doc⟩
  | cons edit rest ih =>
      obtain ⟨hattached, record, next, taken, hrest⟩ := h
      simp only [arrivalIds_cons, List.mem_append, not_or] at hnews
      obtain ⟨last, hpasses⟩ := ih hrest fun id hid => (hnews id hid).2
      exact ⟨last, .cons (fun hactive _ => hattached hactive) (.inr fun id hid => (hnews id hid).1)
        taken hpasses⟩

theorem Accepts.known (h : doc.Accepts edits) (hdoc : doc.Sound)
    (hregular : ∀ edit ∈ edits, edit.change.Regular) (hid : id ∈ aims edits) :
    doc.contains id = true ∨ id ∈ arrivalIds edits := by
  induction edits generalizing doc with
  | nil => cases hid
  | cons edit rest ih =>
      obtain ⟨hattached, record, next, taken, hrest⟩ := h
      rw [List.forall_mem_cons] at hregular
      obtain ⟨e, he, hactive, rfl⟩ := mem_aims.1 hid
      rw [arrivalIds_cons, List.mem_append]
      rcases List.mem_cons.1 he with rfl | he
      · exact .inl (hattached hactive)
      · rcases ih hrest (hdoc.applyEdit hregular.1 taken) hregular.2
          (mem_aims.2 ⟨e, he, hactive, rfl⟩) with hold | hnew
        · exact (gains_of_applyEdit hdoc hregular.1 taken _ hold).imp_right .inl
        · exact .inr (.inr hnew)

/-! ## Runs that can be reconciled -/

/-- Whether a shadow tells what the attached ones of some elements show. -/
def ShowsOn (doc : Document) (ids : List ElementId) (shadow : Shadow) : Prop :=
  ∀ {id node}, id ∈ ids → Entries.find? id doc.nodes = some node → node.content.view = shadow id

variable {shadow : Shadow} {record : Option Applied}

theorem ShowsOn.exists_edit? (h : doc.ShowsOn ids shadow) (hdoc : doc.Sound)
    (hregular : edit.change.Regular)
    (met : edit.inert = false → edit.target ∈ ids → doc.contains edit.target = true)
    (apart : doc.Idle edit ∨ ∀ id ∈ ids, id ∉ edit.news)
    (taken : doc.applyEdit edit = .ok (record, next)) :
    ∃ after, shadow.edit? (edit.within ids) = some after ∧ next.ShowsOn ids after := by
  rcases cases_applyEdit taken with ⟨hidle, -, rfl⟩ | ⟨node, revision, hacted, -, rfl⟩
  · refine ⟨shadow, Shadow.edit?_of_inert ?_, h⟩
    by_cases hid : edit.target ∈ ids
    · rw [Edit.within_of_mem hid]
      rcases hidle with hinert | hgone
      · exact hinert
      · by_contra hactive
        rw [met (by simpa using hactive) hid] at hgone
        cases hgone
    · rw [Edit.within_of_not_mem hid]
      rfl
  · have hwrites := hacted.rewrites hdoc hregular
    have hnews : ∀ id ∈ ids, id ∉ edit.news := by
      refine apart.resolve_left fun hidle => ?_
      rcases hidle with hinert | hgone
      · rw [hacted.active] at hinert
        cases hinert
      · rw [not_contains_iff, hacted.found] at hgone
        cases hgone
    have hrest {id : ElementId} {after : Node} (hid : id ∈ ids) (hne : id ≠ edit.target)
        (hafter : Entries.find? id (doc.revised edit revision).nodes = some after) :
        after.content.view = shadow id :=
      h hid (hwrites.rest hafter (hnews id hid) hne)
    by_cases htarget : edit.target ∈ ids
    · refine ⟨Function.update shadow edit.target revision.content.view, ?_, ?_⟩
      · rw [Edit.within_of_mem htarget, Shadow.edit?_of_active hacted.active, ← h htarget hacted.found,
          view_of_revise (hdoc.keyed hacted.found) hacted.planned, Option.map_some]
      · intro id after hid hafter
        by_cases hne : id = edit.target
        · subst hne
          rw [Function.update_self, hwrites.target hafter (hnews _ hid)]
        · rw [Function.update_of_ne hne, hrest hid hne hafter]
    · refine ⟨shadow, ?_, fun hid hafter => hrest hid (fun heq => htarget (heq ▸ hid)) hafter⟩
      rw [Edit.within_of_not_mem htarget]
      exact Shadow.edit?_of_inert rfl

theorem Passes.exists_run? (h : doc.Passes ids edits last) (hdoc : doc.Sound)
    (hregular : ∀ edit ∈ edits, edit.change.Regular) (hshows : doc.ShowsOn ids shadow) :
    ∃ after, shadow.run? (edits.map (Edit.within ids)) = some after := by
  induction h generalizing shadow with
  | nil doc => exact ⟨shadow, rfl⟩
  | cons met apart taken rest ih =>
      rw [List.forall_mem_cons] at hregular
      obtain ⟨mid, hmid, hshowsMid⟩ := hshows.exists_edit? hdoc hregular.1 met apart taken
      obtain ⟨after, hafter⟩ := ih (hdoc.applyEdit hregular.1 taken) hregular.2 hshowsMid
      exact ⟨after, Shadow.run?_cons_eq_some.2 ⟨mid, hmid, hafter⟩⟩

/-- Two runs on one document, each of which passes by what the other one is aimed at, can be reconciled. -/
theorem Passes.exists_transformLists {others : List Edit} {last' : Document}
    (h : doc.Passes (aims others) edits last) (h' : doc.Passes (aims edits) others last')
    (hdoc : doc.Sound) (hregular : ∀ edit ∈ edits, edit.change.Regular)
    (hregular' : ∀ edit ∈ others, edit.change.Regular) (hcompatible : Compatible edits others) :
    ∃ edits' others', transformLists edits others = .ok (edits', others') := by
  have hsub : aims edits ∩ aims others ⊆ aims edits ∧ aims edits ∩ aims others ⊆ aims others :=
    ⟨fun _ hid => (List.mem_inter_iff.1 hid).1, fun _ hid => (List.mem_inter_iff.1 hid).2⟩
  have hshows : doc.ShowsOn (aims edits ∩ aims others) (doc.shadowOver fun _ => .null) :=
    fun _ hnode => (hdoc.shows _).view hnode
  obtain ⟨after, hafter⟩ := (h.mono hsub.2).exists_run? hdoc hregular hshows
  obtain ⟨after', hafter'⟩ := (h'.mono hsub.1).exists_run? hdoc hregular' hshows
  refine exists_transformLists_of_within hcompatible (fun s hs => (hregular s hs).lawful)
    (fun c hc => (hregular' c hc).lawful) ?_ hafter hafter'
  intro s hs c hc hactive hactive' htarget
  exact List.mem_inter_iff.2 ⟨mem_aims.2 ⟨s, hs, hactive, rfl⟩,
    mem_aims.2 ⟨c, hc, hactive', htarget.symm⟩⟩

end Document
end CoEdit
