import CoEdit.Proofs.Document.Plan

/-!
# Applying edits keeps documents sound

An edit that does something carries out a plan (`cases_applyEdit`), and the children that go are whole
trees, so the plan can be committed (`Acted.grafts`). Hence every document that edits lead to is sound,
also one on which an operation was tried and taken back (`Reachable.sound`).
-/
namespace CoEdit
namespace Document

variable {doc next : Document} {id : ElementId} {revision : Revision} {edit : Edit}
  {record : Option Applied} {build : Build}

/-- What an edit that did something did. -/
structure Acted (doc : Document) (edit : Edit) (node : Node) (revision : Revision) : Prop where
  active : edit.inert = false
  found : Entries.find? edit.target doc.nodes = some node
  planned : doc.revise edit.target node.content edit.change = .ok revision
  fresh : doc.checkFresh (revision.removed.flatMap fun child => (doc.subtree child).ids)
    revision.added = .ok ()

/-- The document after a plan was carried out. -/
def revised (doc : Document) (edit : Edit) (revision : Revision) : Document :=
  doc.commit edit.target revision.content
    (revision.removed.flatMap fun child => (doc.subtree child).ids) revision.added

/-- An edit whose target is attached is planned, and the plan is carried out if what it brings is new. -/
theorem applyEdit_of_found {node : Node} (hactive : edit.inert = false)
    (hfound : Entries.find? edit.target doc.nodes = some node) (build : Build) :
    doc.applyEdit edit build =
      (doc.revise edit.target node.content edit.change build).bind fun revision =>
        (Result.ofExcept (doc.checkFresh (revision.removed.flatMap fun child =>
          (doc.subtree child).ids) revision.added)).bind fun _ =>
          .ok (some ⟨edit, edit.withChange revision.inverse,
            revision.removed.flatMap fun child => (doc.subtree child).ids⟩, doc.revised edit revision) := by
  simp only [applyEdit, hactive, hfound, Bool.false_eq_true, if_false]
  rfl

theorem Acted.applyEdit_eq {node : Node} (h : doc.Acted edit node revision) :
    doc.applyEdit edit = .ok (some ⟨edit, edit.withChange revision.inverse,
      revision.removed.flatMap fun child => (doc.subtree child).ids⟩, doc.revised edit revision) := by
  rw [applyEdit_of_found h.active h.found, h.planned, Result.bind_ok, h.fresh]
  rfl

theorem cases_applyEdit (h : doc.applyEdit edit = .ok (record, next)) :
    ((edit.inert = true ∨ doc.contains edit.target = false) ∧ record = none ∧ next = doc) ∨
      ∃ node revision, doc.Acted edit node revision ∧
        record = some ⟨edit, edit.withChange revision.inverse,
          revision.removed.flatMap fun child => (doc.subtree child).ids⟩ ∧
        next = doc.revised edit revision := by
  cases hinert : edit.inert with
  | true =>
      rw [applyEdit_of_idle (.inl hinert)] at h
      cases h
      exact .inl ⟨.inl rfl, rfl, rfl⟩
  | false =>
      cases hfound : Entries.find? edit.target doc.nodes with
      | none =>
          rw [applyEdit_of_idle (.inr (not_contains_iff.2 hfound))] at h
          cases h
          exact .inl ⟨.inr (not_contains_iff.2 hfound), rfl, rfl⟩
      | some node =>
          rw [applyEdit_of_found hinert hfound, Result.bind_eq_ok_iff] at h
          obtain ⟨revision, hplan, h⟩ := h
          obtain ⟨⟨⟩, hfresh, heq⟩ := Result.bind_eq_ok_iff.1 h
          cases heq
          exact .inr ⟨node, revision, ⟨hinert, hfound, hplan, Result.ofExcept_eq_ok_iff.1 hfresh⟩,
            rfl, rfl⟩

/-- An edit that is taken leaves the rest to be applied, with its record, if any, on top. -/
theorem applyEdits_of_ok {done : List Applied} (h : doc.applyEdit edit build = .ok (record, next))
    (rest : List Edit) :
    doc.applyEdits done (edit :: rest) build = next.applyEdits (record.toList ++ done) rest build := by
  rw [applyEdits, h]
  cases record <;> rfl

theorem applyEdits_of_error {done : List Applied} {e : DocumentError}
    (h : doc.applyEdit edit build = .error e) (rest : List Edit) :
    doc.applyEdits done (edit :: rest) build = (.error e, doc.rollBack done build) := by
  rw [applyEdits, h]

theorem applyEdits_of_overflow {done : List Applied} (h : doc.applyEdit edit build = .overflow)
    (rest : List Edit) : doc.applyEdits done (edit :: rest) build = (.overflow, doc) := by
  rw [applyEdits, h]

theorem Acted.plan {node : Node} (h : doc.Acted edit node revision) (hdoc : doc.Sound) :
    node.content.edit? Element.id edit.change = some revision.content ∧
      revision.removed = node.content.leaving edit.change ∧ revision.added = edit.change.payload :=
  plan_of_revise (hdoc.keyed h.found) h.planned

/-- The children that go are whole trees, so a plan that fits can be committed. -/
theorem Acted.grafts {node : Node} (h : doc.Acted edit node revision) (hdoc : doc.Sound)
    (hregular : edit.change.Regular) : doc.Grafts edit.target node revision.content
      revision.removed (revision.removed.flatMap fun child => (doc.subtree child).ids)
      revision.added := by
  have hfits := fits_revise hdoc (hdoc.keyed h.found) hregular.lawful h.planned
  obtain ⟨kept, hbefore, hafter⟩ := hfits.kept
  obtain ⟨hnodup, hfresh⟩ := (doc.checkFresh_eq_ok_iff _ _).1 h.fresh
  have hsplit := hbefore.nodup_iff.1 (hdoc.children h.found)
  have hdetached (id : ElementId) :
      id ∈ revision.removed.flatMap (fun child => (doc.subtree child).ids) ↔
        ∃ child ∈ revision.removed, Arena.Under doc.nodes child id := by
    rw [List.mem_flatMap]
    refine exists_congr fun child => and_congr_right fun hchild => ?_
    have hlisted : child ∈ node.content.children :=
      hbefore.mem_iff.2 (List.mem_append_left _ hchild)
    obtain ⟨content, hfound⟩ := hdoc.listed h.found hlisted
    exact (hdoc.holds_subtree (contains_iff.2 ⟨_, hfound⟩)).mem_ids id
  refine ⟨h.found, fun child hchild => hbefore.mem_iff.2 (List.mem_append_left _ hchild),
    hdetached, hnodup, hfresh, ?_, fun child => ?_, ?_, hfits.keyed⟩
  · rw [hfits.added]
    exact hregular.keyed
  · rw [hafter.mem_iff, hbefore.mem_iff, List.mem_append, List.mem_append]
    refine or_congr_left ⟨fun hkept => ⟨.inr hkept, fun hremoved => ?_⟩, fun hold => ?_⟩
    · exact (List.nodup_append.1 hsplit).2.2 _ hremoved _ hkept rfl
    · exact hold.1.resolve_left hold.2
  · -- a new child would have to be one that stays, whose id is taken
    rw [hafter.nodup_iff, List.nodup_append]
    refine ⟨(List.nodup_append.1 hsplit).2.1, hnodup.sublist (Element.map_id_sublist _), ?_⟩
    rintro child hkept other hadded rfl
    have hlisted : child ∈ node.content.children :=
      hbefore.mem_iff.2 (List.mem_append_right _ hkept)
    obtain ⟨content, hfound⟩ := hdoc.listed h.found hlisted
    have hmem := hfresh child ((Element.map_id_sublist _).subset hadded)
      (contains_iff.2 ⟨_, hfound⟩)
    obtain ⟨removed, hremoved, ancestors, hlineage, htop⟩ := (hdetached child).1 hmem
    rcases List.mem_cons.1 htop with rfl | htop
    · exact (List.nodup_append.1 hsplit).2.2 _ hremoved _ hkept rfl
    · cases hlineage with
      | root => cases htop
      | child found above listed rest =>
          rw [hfound] at found
          cases found
          exact hdoc.child_not_mem rest h.found
            (hbefore.mem_iff.2 (List.mem_append_left _ hremoved)) htop

theorem Acted.find?_target {node : Node} (h : doc.Acted edit node revision) (hdoc : doc.Sound)
    (hregular : edit.change.Regular) : Entries.find? edit.target (doc.revised edit revision).nodes =
      some { node with content := revision.content } :=
  (h.grafts hdoc hregular).find?_target hdoc

theorem Acted.sound {node : Node} (h : doc.Acted edit node revision) (hdoc : doc.Sound)
    (hregular : edit.change.Regular) : (doc.revised edit revision).Sound :=
  (h.grafts hdoc hregular).sound hdoc

theorem Sound.applyEdit (hdoc : doc.Sound) (hregular : edit.change.Regular)
    (h : doc.applyEdit edit = .ok (record, next)) : next.Sound := by
  rcases cases_applyEdit h with ⟨-, -, rfl⟩ | ⟨node, revision, hacted, -, rfl⟩
  · exact hdoc
  · exact hacted.sound hdoc hregular

theorem regular_of_applyEdit (hdoc : doc.Sound) (hregular : edit.change.Regular) {done : Applied}
    (h : doc.applyEdit edit = .ok (some done, next)) : done.inverse.change.Regular := by
  rcases cases_applyEdit h with ⟨-, hnone, -⟩ | ⟨node, revision, hacted, hsome, -⟩
  · cases hnone
  · cases hsome
    exact (fits_revise hdoc (hdoc.keyed hacted.found) hregular.lawful hacted.planned).inverse

theorem Sound.rollBack (hdoc : doc.Sound) {done : List Applied}
    (hdone : ∀ record ∈ done, record.inverse.change.Regular) : (doc.rollBack done).Sound := by
  induction done generalizing doc with
  | nil => exact hdoc
  | cons record rest ih =>
      have hrest : ∀ other ∈ rest, other.inverse.change.Regular := fun other hother =>
        hdone other (List.mem_cons_of_mem _ hother)
      simp only [Document.rollBack, List.foldl_cons]
      split
      · next happly => exact ih (hdoc.applyEdit (hdone record List.mem_cons_self) happly) hrest
      · exact ih hdoc hrest
      · exact ih hdoc hrest

/-- Edits in a row leave a sound document, whether they are all taken or taken back. -/
theorem Sound.applyEdits (hdoc : doc.Sound) {done : List Applied} {edits : List Edit}
    (hdone : ∀ record ∈ done, record.inverse.change.Regular)
    (hregular : ∀ edit ∈ edits, edit.change.Regular) : (doc.applyEdits done edits).2.Sound := by
  induction edits generalizing doc done with
  | nil => exact hdoc
  | cons edit rest ih =>
      have hedit := hregular edit List.mem_cons_self
      have hrest : ∀ other ∈ rest, other.change.Regular := fun other hother =>
        hregular other (List.mem_cons_of_mem _ hother)
      rw [Document.applyEdits]
      split
      · next record next happly =>
          refine ih (hdoc.applyEdit hedit happly) (List.forall_mem_cons.2 ⟨?_, hdone⟩) hrest
          exact regular_of_applyEdit hdoc hedit happly
      · next happly => exact ih (hdoc.applyEdit hedit happly) hdone hrest
      · exact hdoc.rollBack hdone
      · exact hdoc

theorem ofElement_eq (root : Element) : ofElement root =
    match firstClash? (fun _ => false) root.ids with
    | some id => .error (.duplicateId id)
    | none => .ok ⟨root.id, Entries.putAll (root.placed none) []⟩ := by
  simp only [ofElement, checkFresh, contains, Entries.contains, Entries.find?_nil, Option.isSome_none,
    Bool.false_and, List.findSome?_singleton, List.flatMap_singleton, Option.or_self]
  cases firstClash? (fun _ => false) root.ids <;> rfl

theorem find?_placed {root : Element} (hnodup : root.ids.Nodup) {id : ElementId} {node : Node} :
    Entries.find? id (root.placed none) = some node ↔ (id, node) ∈ root.placed none := by
  rw [← Element.keys_placed none] at hnodup
  exact Entries.find?_iff_mem hnodup

/-- A tree that repeats no id makes a document, whose arena is the list of the nodes of the tree. -/
theorem ofElement_eq_ok_iff {root : Element} :
    ofElement root = .ok doc ↔ root.ids.Nodup ∧ doc = ⟨root.id, root.placed none⟩ := by
  have hnone := firstClash?_eq_none_iff (fun _ => false) root.ids
  simp only [implies_true, and_true] at hnone
  rw [ofElement_eq, ← hnone]
  cases hclash : firstClash? (fun _ => false) root.ids with
  | some id => simp
  | none =>
      have hdistinct := hnone.1 hclash
      rw [← Element.keys_placed none] at hdistinct
      have hplaced : Entries.putAll (root.placed none) [] = root.placed none :=
        Entries.putAll_of_distinct hdistinct
      simp only [hplaced, Except.ok.injEq, true_and, eq_comm]

theorem sound_ofElement {root : Element} (hkeyed : root.Keyed) (h : ofElement root = .ok doc) :
    doc.Sound := by
  obtain ⟨hnodup, rfl⟩ := ofElement_eq_ok_iff.1 h
  have hfind (id : ElementId) (node : Node) : Entries.find? id (root.placed none) = some node ↔
      (id, node) ∈ root.placed none := find?_placed hnodup
  rcases root with ⟨rootId, content⟩
  have hroot := Element.mem_placed_root none (.mk rootId content)
  have hlineage := Arena.Lineage.root ((hfind _ _).2 hroot)
  constructor
  · exact ⟨_, (hfind _ _).2 hroot⟩
  · intro id below hbelow
    have hmem := (hfind _ _).1 hbelow
    rw [Element.placed_mk, List.mem_cons, List.mem_flatMap] at hmem
    rcases hmem with heq | ⟨child, -, hmem⟩
    · cases heq
      rfl
    · exact absurd rfl (Element.parent_of_mem_placed hmem)
  · intro id node child hnode hchild
    obtain ⟨below, hmem⟩ := Element.mem_placed_child ((hfind _ _).1 hnode) hchild
    exact ⟨below, (hfind _ _).2 hmem⟩
  · intro id node hnode
    obtain ⟨x, hx, -, hcontent⟩ := Element.exists_of_mem_placed ((hfind _ _).1 hnode)
    rw [← hcontent, Content.children_map]
    exact Element.nodup_children hnodup hx
  · intro id node hnode
    obtain ⟨x, hx, -, hcontent⟩ := Element.exists_of_mem_placed ((hfind _ _).1 hnode)
    rw [← hcontent]
    exact Content.keyed_map _ (hkeyed x hx)
  · intro id node hnode
    have hmem := (hfind _ _).1 hnode
    have hid : id ∈ Element.ids (.mk rootId content) := by
      rw [← Element.keys_placed none]
      exact List.mem_map.2 ⟨_, hmem, rfl⟩
    rcases Element.mem_ids_mk.1 hid with rfl | ⟨child, hchild, hid⟩
    · exact ⟨_, hlineage⟩
    · refine Element.lineage_placed (fun other placed hplaced => (hfind _ _).2 ?_)
        ((hfind _ _).2 hroot) ?_ hlineage hid
      · rw [Element.placed_mk]
        exact List.mem_cons_of_mem _ (List.mem_flatMap.2 ⟨child, hchild, hplaced⟩)
      · change child.id ∈ (content.map Element.id).children
        rw [Content.children_map]
        exact List.mem_map_of_mem hchild

/-- The documents that come about: one made of a tree, and whatever edits and operations make of one with
checked sums, those that are refused and taken back included. -/
inductive Reachable : Document → Prop
  | ofElement {root : Element} {doc : Document} (keyed : root.Keyed)
      (made : Document.ofElement root = .ok doc) : Reachable doc
  | applyEdit {doc next : Document} {edit : Edit} {record : Option Applied} (before : Reachable doc)
      (regular : edit.change.Regular) (taken : doc.applyEdit edit = .ok (record, next)) :
      Reachable next
  | apply {doc : Document} {operation : Operation} (before : Reachable doc)
      (regular : ∀ edit ∈ operation.edits, edit.change.Regular) :
      Reachable (doc.apply operation).2

theorem Reachable.sound (h : doc.Reachable) : doc.Sound := by
  induction h with
  | ofElement keyed made => exact sound_ofElement keyed made
  | applyEdit before regular taken ih => exact ih.applyEdit regular taken
  | apply before regular ih => exact ih.applyEdits (fun _ h => absurd h List.not_mem_nil) regular

end Document
end CoEdit
