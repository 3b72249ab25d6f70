import CoEdit.Proofs.Confluence.Leaving
import CoEdit.Proofs.Document.Runs
import CoEdit.Proofs.Document.Shows

/-!
# Documents that show the same

Two documents with one root show the same if every element that is attached to both shows the same in
both (`Same`). They then have the same elements attached, in the same places (`Same.lineage`), and edits lead
from the one where they lead from the other (`Same.exists_runs`). Unlike agreement of trees this is an
equivalence also where a number is none, and unlike a shadow it does not mind an id that was in use before.

What an edit makes of a document is described by what it writes (`Rewrites`): the trees that it brings, the
view of its target, and nothing else. In particular legal edits make numbers of numbers (`Numeric.runs`), and
documents that show the same and hold numbers only agree (`Same.agrees`).
-/
namespace CoEdit

/-- The ids of the elements that an edit would bring along. -/
def Edit.news (edit : Edit) : List ElementId :=
  edit.change.payload.flatMap Element.ids

theorem Edit.map_arrivals (edit : Edit) : edit.arrivals.map Element.id = edit.news :=
  List.map_flatMap

theorem Edit.Rebased.regular {edit left : Edit} (h : edit.Rebased left)
    (hregular : edit.change.Regular) : left.change.Regular :=
  ⟨h.change.lawful hregular.lawful, fun value hvalue =>
    hregular.keyed value (h.change.payload ▸ hvalue)⟩

theorem RebasedAll.regular {edits left : List Edit} (h : RebasedAll edits left)
    (hregular : ∀ edit ∈ edits, edit.change.Regular) : ∀ edit ∈ left, edit.change.Regular := by
  intro edit hedit
  obtain ⟨original, hmem, hrebased⟩ := h.exists_of_mem hedit
  exact hrebased.regular (hregular original hmem)

theorem Edit.Rebased.arrivals {edit left : Edit} (h : edit.Rebased left) :
    left.arrivals = edit.arrivals := by
  rw [Edit.arrivals, h.change.payload, Edit.arrivals]

theorem Edit.Rebased.news {edit left : Edit} (h : edit.Rebased left) : left.news = edit.news := by
  rw [Edit.news, h.change.payload, Edit.news]

theorem arrivalIds_eq_flatMap (edits : List Edit) : arrivalIds edits = edits.flatMap Edit.news := by
  induction edits with
  | nil => rfl
  | cons edit rest ih => rw [arrivalIds_cons, List.flatMap_cons, ih, Edit.news]

theorem mem_arrivalIds {edits : List Edit} {id : ElementId} :
    id ∈ arrivalIds edits ↔ ∃ edit ∈ edits, id ∈ edit.news := by
  rw [arrivalIds_eq_flatMap, List.mem_flatMap]

namespace Document
open Arena

variable {doc other third next last : Document} {edit : Edit} {edits : List Edit} {node : Node}
  {revision : Revision} {record : Option Applied} {records : List Applied} {id : ElementId} {view : View}

/-! ## What a plan does -/

/-- Whether an element goes when the plan is carried out. -/
def Gone (doc : Document) (revision : Revision) (id : ElementId) : Prop :=
  ∃ child ∈ revision.removed, Under doc.nodes child id

/-- Every attached element of `next` was brought along by the edit, or is its target and shows `view`, or was
attached to `doc` as it is. -/
structure Rewrites (doc : Document) (edit : Edit) (view : View) (next : Document) : Prop where
  sound : next.Sound
  root : next.root = doc.root
  news : ∀ {id node}, Entries.find? id next.nodes = some node → id ∈ edit.news →
    node.content.view = told edit.arrivals id
  target : ∀ {node}, Entries.find? edit.target next.nodes = some node → edit.target ∉ edit.news →
    node.content.view = view
  rest : ∀ {id node}, Entries.find? id next.nodes = some node → id ∉ edit.news → id ≠ edit.target →
    Entries.find? id doc.nodes = some node

namespace Acted

variable (h : doc.Acted edit node revision) (hdoc : doc.Sound) (hregular : edit.change.Regular)
include h hdoc hregular

omit hregular in
theorem added_eq : revision.added = edit.change.payload :=
  (h.plan hdoc).2.2

omit hregular in
theorem removed_eq : revision.removed = node.content.leaving edit.change :=
  (h.plan hdoc).2.1

theorem nodup_news : edit.news.Nodup := by
  have hnodup := (h.grafts hdoc hregular).nodup
  rwa [h.added_eq hdoc] at hnodup

theorem gone_of_news (hnews : id ∈ edit.news) (hid : doc.contains id = true) :
    doc.Gone revision id := by
  have g := h.grafts hdoc hregular
  refine (g.mem_detached id).1 (g.fresh id ?_ hid)
  rwa [h.added_eq hdoc]

theorem target_not_mem_news : edit.target ∉ edit.news := by
  have g := h.grafts hdoc hregular
  have hnot := g.not_added h.found (g.target_stays hdoc)
  rwa [h.added_eq hdoc] at hnot

theorem cases_find? {after : Node}
    (hafter : Entries.find? id (doc.revised edit revision).nodes = some after) :
    (id ∈ edit.news ∧ after.content.view = told edit.arrivals id) ∨
      id ∉ edit.news ∧ ¬doc.Gone revision id ∧
        ((id = edit.target ∧ after = { node with content := revision.content }) ∨
          (id ≠ edit.target ∧ Entries.find? id doc.nodes = some after)) := by
  have g := h.grafts hdoc hregular
  have hadded := h.added_eq hdoc
  rcases g.cases_find? hdoc hafter with hnew | ⟨rfl, hsame⟩ | ⟨hne, hstays, hbefore⟩
  · have hmem := mem_added_ids hnew
    rw [hadded] at hnew hmem
    obtain ⟨value, hvalue, hplaced⟩ := List.mem_flatMap.1 hnew
    obtain ⟨x, hx, rfl, hcontent⟩ := Element.exists_of_mem_placed hplaced
    have harrives : x ∈ edit.arrivals := List.mem_flatMap.2 ⟨value, hvalue, hx⟩
    refine .inl ⟨hmem, ?_⟩
    rw [told_id (edit.map_arrivals ▸ h.nodup_news hdoc hregular) harrives, ← hcontent]
    rfl
  · exact .inr ⟨h.target_not_mem_news hdoc hregular,
      fun hgone => g.target_stays hdoc ((g.mem_detached _).2 hgone), .inl ⟨rfl, hsame⟩⟩
  · refine .inr ⟨?_, fun hgone => hstays ((g.mem_detached _).2 hgone), .inr ⟨hne, hbefore⟩⟩
    have hnot := g.not_added hbefore hstays
    rwa [hadded] at hnot

/-- An edit that carries out a plan writes what it planned. -/
theorem rewrites :
    doc.Rewrites edit revision.content.view (doc.revised edit revision) where
  sound := h.sound hdoc hregular
  root := rfl
  news := by
    intro id after hafter hnews
    rcases h.cases_find? hdoc hregular hafter with hnew | hold
    · exact hnew.2
    · exact absurd hnews hold.1
  target := by
    intro after hafter hnot
    rcases h.cases_find? hdoc hregular hafter with hnew | ⟨-, -, hsame | hne⟩
    · exact absurd hnew.1 hnot
    · rw [hsame.2]
    · exact absurd rfl hne.1
  rest := by
    intro id after hafter hnot hne
    rcases h.cases_find? hdoc hregular hafter with hnew | ⟨-, -, hsame | hold⟩
    · exact absurd hnew.1 hnot
    · exact absurd hsame.1 hne
    · exact hold.2

theorem lineage_stays {ancestors : List ElementId} (hlineage : Lineage doc.nodes id ancestors)
    (hstays : ¬doc.Gone revision id) : Lineage (doc.revised edit revision).nodes id ancestors := by
  have g := h.grafts hdoc hregular
  exact g.lineage_stays hdoc hlineage fun hmem => hstays ((g.mem_detached id).1 hmem)

theorem contains_revised_iff : (doc.revised edit revision).contains id = true ↔
    id ∈ edit.news ∨ (doc.contains id = true ∧ ¬doc.Gone revision id) := by
  have g := h.grafts hdoc hregular
  constructor
  · intro hid
    obtain ⟨after, hafter⟩ := contains_iff.1 hid
    rcases h.cases_find? hdoc hregular hafter with hnew | ⟨-, hstays, hsame | hold⟩
    · exact .inl hnew.1
    · exact .inr ⟨hsame.1 ▸ contains_iff.2 ⟨_, h.found⟩, hstays⟩
    · exact .inr ⟨contains_iff.2 ⟨_, hold.2⟩, hstays⟩
  · rintro (hnews | ⟨hid, hstays⟩)
    · have hadded := h.added_eq hdoc
      rw [Edit.news, ← hadded, ← keys_flatMap_placed edit.target] at hnews
      obtain ⟨⟨_, placed⟩, hmem, rfl⟩ := List.mem_map.1 hnews
      exact contains_iff.2 ⟨placed, find?_commit_added g.nodup hmem⟩
    · obtain ⟨before, hbefore⟩ := contains_iff.1 hid
      obtain ⟨ancestors, hlineage⟩ := hdoc.reached hbefore
      exact contains_iff.2
        ((h.lineage_stays hdoc hregular hlineage hstays).attached List.mem_cons_self)

end Acted

theorem gains_of_applyEdit (hdoc : doc.Sound) (hregular : edit.change.Regular)
    (h : doc.applyEdit edit = .ok (record, next)) : doc.Gains next edit.news := by
  rcases cases_applyEdit h with ⟨-, -, rfl⟩ | ⟨node, revision, hacted, -, rfl⟩
  · exact fun id hid => .inl hid
  · intro id hid
    rcases (hacted.contains_revised_iff hdoc hregular).1 hid with hnews | hold
    · exact .inr hnews
    · exact .inl hold.1

/-- Nothing goes but what is recorded. -/
theorem contains_of_applyEdit (hdoc : doc.Sound) (hregular : edit.change.Regular)
    (h : doc.applyEdit edit = .ok (record, next)) (hid : doc.contains id = true)
    (hstays : ∀ done ∈ record, id ∉ done.detached) : next.contains id = true := by
  rcases cases_applyEdit h with ⟨-, -, rfl⟩ | ⟨node, revision, hacted, rfl, rfl⟩
  · exact hid
  · refine (hacted.contains_revised_iff hdoc hregular).2 (.inr ⟨hid, fun hgone => ?_⟩)
    exact hstays _ rfl (((hacted.grafts hdoc hregular).mem_detached id).2 hgone)

theorem Runs.detached_known (h : doc.Runs edits records last) (hdoc : doc.Sound)
    (hregular : ∀ edit ∈ edits, edit.change.Regular) {done : Applied} (hdone : done ∈ records)
    (hid : id ∈ done.detached) : doc.contains id = true ∨ id ∈ arrivalIds edits := by
  induction h with
  | nil doc => cases hdone
  | @cons doc next last edit edits record records taken rest ih =>
      rw [List.forall_mem_cons] at hregular
      rcases List.mem_append.1 hdone with hhead | htail
      · rcases cases_applyEdit taken with ⟨-, rfl, -⟩ | ⟨node, revision, hacted, rfl, -⟩
        · cases hhead
        · cases List.mem_singleton.1 hhead
          obtain ⟨child, -, ancestors, hlineage, -⟩ :=
            ((hacted.grafts hdoc hregular.1).mem_detached id).1 hid
          exact .inl (contains_iff.2 (hlineage.attached List.mem_cons_self))
      · rw [arrivalIds_cons, List.mem_append]
        rcases ih (hdoc.applyEdit hregular.1 taken) hregular.2 htail with hold | hnews
        · exact (gains_of_applyEdit hdoc hregular.1 taken id hold).imp_right .inl
        · exact .inr (.inr hnews)

theorem exists_acted_of_fits (hdoc : doc.Sound) (hactive : edit.inert = false)
    (hfound : Entries.find? edit.target doc.nodes = some node)
    (hfits : node.content.view.edit? edit.change = some view) (hnodup : edit.news.Nodup)
    (hfresh : ∀ id ∈ edit.news, doc.contains id = true →
      ∃ child ∈ node.content.leaving edit.change, Under doc.nodes child id) :
    ∃ revision, doc.Acted edit node revision ∧ revision.content.view = view := by
  have hkeyed := hdoc.keyed hfound
  obtain ⟨revision, hplanned, hview⟩ := exists_revise doc edit.target hkeyed hfits
  obtain ⟨-, hremoved, hadded⟩ := plan_of_revise hkeyed hplanned
  refine ⟨revision, ⟨hactive, hfound, hplanned, ?_⟩, hview⟩
  rw [checkFresh_eq_ok_iff, hadded]
  refine ⟨hnodup, fun id hid hattached => ?_⟩
  obtain ⟨child, hchild, hunder⟩ := hfresh id hid hattached
  obtain ⟨below, hlisted⟩ :=
    hdoc.listed hfound (Content.leaving_subset node.content edit.change hchild)
  refine List.mem_flatMap.2 ⟨child, hremoved ▸ hchild, ?_⟩
  exact ((hdoc.holds_subtree (contains_iff.2 ⟨_, hlisted⟩)).mem_ids id).2 hunder

/-! ## Documents that show the same -/

/-- Two sound documents with one root, in which every element that is attached to both shows the same. -/
structure Same (doc other : Document) : Prop where
  left : doc.Sound
  right : other.Sound
  root : other.root = doc.root
  view : ∀ {id node node'}, Entries.find? id doc.nodes = some node →
    Entries.find? id other.nodes = some node' → node'.content.view = node.content.view

namespace Same

theorem refl (h : doc.Sound) : doc.Same doc where
  left := h
  right := h
  root := rfl
  view := by
    intro id node node' hnode hnode'
    rw [hnode] at hnode'
    cases hnode'
    rfl

theorem symm (h : doc.Same other) : other.Same doc :=
  ⟨h.right, h.left, h.root.symm, fun hnode hnode' => (h.view hnode' hnode).symm⟩

variable (h : doc.Same other)
include h

theorem children_perm {node' : Node} (hnode : Entries.find? id doc.nodes = some node)
    (hnode' : Entries.find? id other.nodes = some node') :
    node.content.children.Perm node'.content.children :=
  Content.children_perm_of_view (h.left.keyed hnode) (h.right.keyed hnode') (h.view hnode hnode').symm

theorem lineage {ancestors : List ElementId} (hid : Lineage doc.nodes id ancestors) :
    Lineage other.nodes id ancestors := by
  induction hid with
  | root found =>
      obtain ⟨content, hroot⟩ := h.right.root
      rw [h.root, ← h.left.orphan found] at hroot
      exact .root hroot
  | child found above listed rest ih =>
      obtain ⟨above', habove'⟩ := ih.attached List.mem_cons_self
      have hlisted := (h.children_perm above habove').mem_iff.1 listed
      obtain ⟨below, hbelow⟩ := h.right.listed habove' hlisted
      exact .child hbelow habove' hlisted ih

theorem exists_node (hnode : Entries.find? id doc.nodes = some node) :
    ∃ node', Entries.find? id other.nodes = some node' ∧ node'.content.view = node.content.view := by
  obtain ⟨ancestors, hlineage⟩ := h.left.reached hnode
  obtain ⟨node', hnode'⟩ := (h.lineage hlineage).attached List.mem_cons_self
  exact ⟨node', hnode', h.view hnode hnode'⟩

theorem contains_iff : other.contains id = true ↔ doc.contains id = true := by
  constructor
  · intro hid
    obtain ⟨node', hnode'⟩ := Document.contains_iff.1 hid
    obtain ⟨node, hnode, -⟩ := h.symm.exists_node hnode'
    exact Document.contains_iff.2 ⟨node, hnode⟩
  · intro hid
    obtain ⟨node, hnode⟩ := Document.contains_iff.1 hid
    obtain ⟨node', hnode', -⟩ := h.exists_node hnode
    exact Document.contains_iff.2 ⟨node', hnode'⟩

theorem under {top : ElementId} (hid : Under doc.nodes top id) : Under other.nodes top id := by
  obtain ⟨ancestors, hlineage, hmem⟩ := hid
  exact ⟨ancestors, h.lineage hlineage, hmem⟩

theorem trans (h' : other.Same third) : doc.Same third where
  left := h.left
  right := h'.right
  root := h'.root.trans h.root
  view := by
    intro id node node'' hnode hnode''
    obtain ⟨node', hnode', hview⟩ := h.exists_node hnode
    exact (h'.view hnode' hnode'').trans hview

theorem exists_acted (hacted : doc.Acted edit node revision) (hregular : edit.change.Regular) :
    ∃ node' revision', other.Acted edit node' revision' ∧
      revision'.content.view = revision.content.view := by
  have hkeyed := h.left.keyed hacted.found
  obtain ⟨node', hnode', hview⟩ := h.exists_node hacted.found
  have hfits := view_of_revise hkeyed hacted.planned
  rw [← hview] at hfits
  obtain ⟨planned, hplanned, -⟩ := exists_revise other edit.target (h.right.keyed hnode') hfits
  have hleaving := Content.leaving_subset_of_view hkeyed (h.right.keyed hnode') hregular.lawful
    (h.left.children hacted.found) (plan_of_revise hkeyed hacted.planned).1
    (plan_of_revise (h.right.keyed hnode') hplanned).1 hview.symm
  obtain ⟨revision', hacted', hview'⟩ := exists_acted_of_fits h.right hacted.active hnode' hfits
    (hacted.nodup_news h.left hregular) fun id hid hattached => by
      obtain ⟨child, hchild, hunder⟩ :=
        hacted.gone_of_news h.left hregular hid (h.contains_iff.1 hattached)
      rw [hacted.removed_eq h.left] at hchild
      exact ⟨child, hleaving hchild, h.under hunder⟩
  exact ⟨node', revision', hacted', hview'⟩

omit h in
/-- What is written alike on two documents that show the same makes documents that show the same. -/
theorem rewrites {next' : Document} (h : doc.Same other) (hnext : doc.Rewrites edit view next)
    (hnext' : other.Rewrites edit view next') (htarget : edit.target ∉ edit.news) :
    next.Same next' where
  left := hnext.sound
  right := hnext'.sound
  root := by rw [hnext'.root, hnext.root, h.root]
  view := by
    intro id node node' hnode hnode'
    by_cases hnews : id ∈ edit.news
    · rw [hnext.news hnode hnews, hnext'.news hnode' hnews]
    · by_cases hid : id = edit.target
      · subst hid
        rw [hnext.target hnode htarget, hnext'.target hnode' htarget]
      · exact h.view (hnext.rest hnode hnews hid) (hnext'.rest hnode' hnews hid)

theorem exists_applyEdit (hregular : edit.change.Regular)
    (happly : doc.applyEdit edit = .ok (record, next)) :
    ∃ record' next', other.applyEdit edit = .ok (record', next') ∧ next.Same next' := by
  rcases cases_applyEdit happly with ⟨hidle, -, rfl⟩ | ⟨node, revision, hacted, -, rfl⟩
  · refine ⟨none, other, applyEdit_of_idle (hidle.imp_right fun hnot => ?_), h⟩
    rw [Bool.eq_false_iff] at hnot ⊢
    exact fun hid => hnot (h.contains_iff.1 hid)
  · obtain ⟨node', revision', hacted', hview⟩ := h.exists_acted hacted hregular
    have hwrites' := hacted'.rewrites h.right hregular
    rw [hview] at hwrites'
    exact ⟨_, _, hacted'.applyEdit_eq, h.rewrites (hacted.rewrites h.left hregular) hwrites'
      (hacted.target_not_mem_news h.left hregular)⟩

end Same
/-! ## Runs on documents that show the same -/

/-- Edits run on the one document where they run on the other, to documents that show the same. -/
theorem Same.exists_runs (h : doc.Same other) (hregular : ∀ edit ∈ edits, edit.change.Regular)
    (hruns : doc.Runs edits records next) :
    ∃ records' next', other.Runs edits records' next' ∧ next.Same next' := by
  induction hruns generalizing other with
  | nil doc => exact ⟨[], other, .nil other, h⟩
  | cons taken rest ih =>
      rw [List.forall_mem_cons] at hregular
      obtain ⟨record', mid, taken', hmid⟩ := h.exists_applyEdit hregular.1 taken
      obtain ⟨records', next', hrest, hnext⟩ := ih hmid hregular.2
      exact ⟨_, next', .cons taken' hrest, hnext⟩

/-! ## Numbers -/

def Numeric (doc : Document) : Prop :=
  ∀ {id node}, Entries.find? id doc.nodes = some node → node.content.view ≠ .number .notANumber

theorem Sound.numeric_of_agrees (h : doc.Sound) (hself : (doc.snapshot == doc.snapshot) = true) :
    doc.Numeric := by
  have hshows := h.shows fun _ => .null
  intro id node hnode
  rw [hshows.view hnode]
  exact (hshows.of_agrees h hself).2.2 id (contains_iff.2 ⟨node, hnode⟩)

theorem Numeric.applyEdit (h : doc.Numeric) (hdoc : doc.Sound) (hlegal : edit.change.Legal)
    (happly : doc.applyEdit edit = .ok (record, next)) : next.Numeric := by
  rcases cases_applyEdit happly with ⟨-, -, rfl⟩ | ⟨node, revision, hacted, -, rfl⟩
  · exact h
  · have hwrites := hacted.rewrites hdoc hlegal.regular
    have hcoming : ∀ x ∈ edit.arrivals, x.view ≠ .number .notANumber := by
      intro x hx
      refine numeric_of_legal (List.forall_mem_singleton.2 hlegal) x ?_
      rwa [arrivals, List.flatMap_singleton]
    intro id after hafter
    by_cases hnews : id ∈ edit.news
    · rw [hwrites.news hafter hnews]
      exact told_numeric hcoming id
    · by_cases hid : id = edit.target
      · subst hid
        rw [hwrites.target hafter hnews]
        exact Shadow.edit?_view_numeric hlegal (h hacted.found)
          (view_of_revise (hdoc.keyed hacted.found) hacted.planned)
      · exact h (hwrites.rest hafter hnews hid)

theorem Numeric.runs (h : doc.Numeric) (hdoc : doc.Sound)
    (hlegal : ∀ edit ∈ edits, edit.change.Legal) (hruns : doc.Runs edits records last) :
    last.Numeric := by
  induction hruns with
  | nil doc => exact h
  | cons taken rest ih =>
      rw [List.forall_mem_cons] at hlegal
      exact ih (h.applyEdit hdoc hlegal.1 taken) (hdoc.applyEdit hlegal.1.regular taken) hlegal.2

/-- Documents that show the same agree, numbers that are none apart. -/
theorem Same.agrees (h : doc.Same other) (hnumeric : doc.Numeric) :
    (doc.snapshot == other.snapshot) = true := by
  have hshows := h.left.shows fun _ => .null
  refine hshows.agrees ⟨h.right, ?_⟩ h.root.symm ?_
  · intro id node' hnode'
    obtain ⟨node, hnode, hview⟩ := h.symm.exists_node hnode'
    rw [← hshows.view hnode, hview]
  · intro id
    cases hid : doc.contains id with
    | true =>
        obtain ⟨node, hnode⟩ := Document.contains_iff.1 hid
        rw [← hshows.view hnode]
        exact hnumeric hnode
    | false =>
        rw [shadowOver_of_not_contains hid]
        exact nofun

end Document
end CoEdit
