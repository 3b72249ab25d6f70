import CoEdit.Proofs.Document.Crossing
import CoEdit.Proofs.Document.Refinement

/-!
# Two edits of one element

Two edits of one element, each taken by the document on its own, can be reconciled and applied behind each
other (`Meet.exists_meeting`). Nothing but the content of that element changes in the tree, and the content
comes about by the change of the one edit and what the rule leaves of the other one. So whatever is said of
a rule for contents holds of documents as well.
-/
namespace CoEdit

namespace Element

variable {target : ElementId} {content other : Content Element} {tree : Element}

theorem withContent_withContent (target : ElementId) (content other : Content Element)
    (tree : Element) : (tree.withContent target other).withContent target content =
      tree.withContent target content := by
  induction tree using Element.induction with
  | mk id old ih =>
      by_cases hid : id = target
      · subst hid
        rw [withContent_self, withContent_self, withContent_self]
      · rw [withContent_of_ne hid, withContent_of_ne hid, withContent_of_ne hid, Content.map_map]
        congr 1
        exact Content.map_congr ih

theorem mem_preorder_withContent (content : Content Element) (h : target ∈ tree.ids) :
    .mk target content ∈ (tree.withContent target content).preorder := by
  induction tree using Element.induction with
  | mk id old ih =>
      by_cases hid : id = target
      · subst hid
        rw [withContent_self]
        exact mem_preorder_self _
      · obtain ⟨child, hchild, hmem⟩ := (mem_ids_mk.1 h).resolve_left (Ne.symm hid)
        rw [withContent_of_ne hid, mem_preorder_mk, Content.children_map]
        exact .inr ⟨_, List.mem_map_of_mem hchild, ih child hchild hmem⟩

theorem eq_of_mem_preorder {x y : Element} (hnodup : tree.ids.Nodup) (hx : x ∈ tree.preorder)
    (hy : y ∈ tree.preorder) (h : x.id = y.id) : x = y :=
  List.inj_on_of_nodup_map hnodup hx hy h

theorem mem_ids_of_mem_children {x child : Element} (hx : x ∈ tree.preorder)
    (hchild : child ∈ x.content.children) : child.id ∈ tree.ids := by
  cases x with
  | mk id content =>
      exact mem_ids_of_mem_preorder <| preorder_subset hx <|
        mem_preorder_mk.2 (.inr ⟨child, hchild, mem_preorder_self child⟩)

theorem sublist_flatMap_preorder (values : List Element) : values.Sublist (values.flatMap preorder) := by
  induction values with
  | nil => exact .slnil
  | cons value rest ih =>
      exact (List.singleton_sublist.2 (mem_preorder_self value)).append ih

end Element

/-- A part of contents with changes of its own: what edits and rules do to the part is said without the
contents around it. No change to the part is an addition to a number. -/
structure Facet (σ γ : Type) where
  content : σ → Content Element
  change : γ → Change
  edit? : σ → γ → Option σ
  transform : γ → γ → Reconciled γ
  isDelta_eq : ∀ c, (change c).isDelta = false
  transform_eq : ∀ c d, (change c).transform (change d) = (transform c d).lift change
  edit?_eq : ∀ state c, (content state).edit? (fun value => value) (change c) =
    (edit? state c).map content

namespace Facet

def array : Facet (List Element) ArrayChange where
  content := .array
  change := .array
  edit? := ArrayChange.applied? fun value => value
  transform := ArrayChange.transform
  isDelta_eq _ := rfl
  transform_eq _ _ := rfl
  edit?_eq _ _ := rfl

def string : Facet String StringChange where
  content := .string
  change := .string
  edit? := StringChange.edit?
  transform := StringChange.transform
  isDelta_eq _ := rfl
  transform_eq _ _ := rfl
  edit?_eq _ _ := rfl

def object : Facet (List (String × Element)) ObjectChange where
  content := .object
  change := .object
  edit? := ObjectChange.applied? fun value => value
  transform := ObjectChange.transform
  isDelta_eq _ := rfl
  transform_eq _ _ := rfl
  edit?_eq _ _ := rfl

end Facet

namespace Document

variable {doc first second next : Document} {a b edit : Edit} {node : Node} {revision : Revision}
  {record : Option Applied}

theorem Acted.exists_content (h : doc.Acted edit node revision) (hdoc : doc.Sound)
    (hregular : edit.change.Regular) {x : Element} (hx : x ∈ doc.snapshot.preorder)
    (hid : x.id = edit.target) : ∃ after, x.content.edit? (fun value => value) edit.change = some after ∧
      (doc.revised edit revision).snapshot = doc.snapshot.withContent edit.target after := by
  obtain ⟨y, after, hfind, hafter, -, hsame⟩ :=
    Element.edit?_eq_some_iff.1 (h.edit?_eq hdoc hregular)
  have hy : y.id = edit.target := by simpa using List.find?_some hfind
  rw [Element.eq_of_mem_preorder hdoc.nodup_snapshot (List.mem_of_find?_eq_some hfind) hx
    (hy.trans hid.symm)] at hafter
  exact ⟨after, hafter, hsame.symm⟩

/-- What a rule left of an edit, applied where the content of its target is known. -/
theorem Sound.exists_content_after (hdoc : doc.Sound) {target : ElementId} {tree : Element}
    {content : Content Element} (hsnapshot : doc.snapshot = tree.withContent target content)
    (hmem : target ∈ tree.ids) {outcome : Outcome Change} (hactive : edit.inert = false)
    (htarget : edit.target = target) (hregular : (edit.after outcome).change.Regular)
    (h : doc.applyEdit (edit.after outcome) = .ok (record, next)) :
    ∃ after, outcome.follow (Content.edit? fun value => value) content = some after ∧
      next.snapshot = tree.withContent target after := by
  cases outcome with
  | dropped =>
      rw [applyEdit_of_idle (.inl rfl)] at h
      cases h
      exact ⟨content, rfl, hsnapshot⟩
  | becomes change =>
      have hx : .mk target content ∈ doc.snapshot.preorder := by
        rw [hsnapshot]
        exact Element.mem_preorder_withContent content hmem
      rcases cases_applyEdit h with ⟨hidle, -⟩ | ⟨node, revision, hacted, -, rfl⟩
      · rcases hidle with hinert | hgone
        · rw [show (edit.after (.becomes change)).inert = false from hactive] at hinert
          cases hinert
        · have hthere := hdoc.mem_ids_snapshot.1 (Element.mem_ids_of_mem_preorder hx)
          rw [show (edit.after (.becomes change)).target = target from htarget] at hgone
          rw [show (Element.mk target content).id = target from rfl, hgone] at hthere
          cases hthere
      · obtain ⟨after, hafter, hnext⟩ := hacted.exists_content hdoc hregular hx htarget.symm
        refine ⟨after, hafter, ?_⟩
        rw [hnext, show (edit.after (.becomes change)).target = target from htarget, hsnapshot,
          Element.withContent_withContent]

/-- Two edits of one element, each of which the document takes on its own and has something to do. They
bring along different elements, all of them new. -/
structure Meet (doc : Document) (a b : Edit) (first second : Document) : Prop where
  target : b.target = a.target
  regular : a.change.Regular
  regular' : b.change.Regular
  nodup : (arrivalIds [a, b]).Nodup
  fresh : ∀ id ∈ arrivalIds [a, b], doc.contains id = false
  taken : ∃ record, doc.applyEdit a = .ok (some record, first)
  taken' : ∃ record, doc.applyEdit b = .ok (some record, second)

/-- The edits `a` and `b`, which lead to `first` and `second`, are reconciled to `a'` and `b'`, and each of
these can follow the other edit. The target had `content`; it has `merged` where `b'` follows `a`, and
`merged'` where `a'` follows `b`. Nothing else in the tree changes. -/
structure Merges (doc : Document) (a b a' b' : Edit) (first second : Document)
    (content merged merged' : Content Element) : Prop where
  mem : .mk a.target content ∈ doc.snapshot.preorder
  transform : a.transform b = .ok (a', b')
  left : ∃ record left, first.applyEdit b' = .ok (record, left) ∧
    left.snapshot = doc.snapshot.withContent a.target merged
  right : ∃ record right, second.applyEdit a' = .ok (record, right) ∧
    right.snapshot = doc.snapshot.withContent a.target merged'

/-- How the changes `c` and `d` of two edits work out on the part of the target that they change, which is
`state` before. -/
structure Meeting {σ γ : Type} (facet : Facet σ γ) (doc : Document) (a b : Edit) (c d : γ)
    (first second : Document) (state : σ) where
  after : σ
  after' : σ
  outcome : Outcome γ
  outcome' : Outcome γ
  merged : σ
  merged' : σ
  keyed : (facet.content state).Keyed
  edit : facet.edit? state c = some after
  edit' : facet.edit? state d = some after'
  rule : facet.transform c d = .ok (outcome, outcome')
  follow : outcome'.follow facet.edit? after = some merged
  follow' : outcome.follow facet.edit? after' = some merged'
  merges : doc.Merges a b (a.after (outcome.map facet.change)) (b.after (outcome'.map facet.change))
    first second (facet.content state) (facet.content merged) (facet.content merged')

namespace Meet

variable (h : doc.Meet a b first second) (hdoc : doc.Sound)
include h

theorem exists_acted : ∃ node own node' other, doc.Acted a node own ∧ doc.Acted b node' other ∧
    first = doc.revised a own ∧ second = doc.revised b other := by
  obtain ⟨record, htaken⟩ := h.taken
  obtain ⟨record', htaken'⟩ := h.taken'
  obtain ⟨node, own, hacted, -, hfirst⟩ :=
    (cases_applyEdit htaken).resolve_left fun hnone => by cases hnone.2.1
  obtain ⟨node', other, hacted', -, hsecond⟩ :=
    (cases_applyEdit htaken').resolve_left fun hnone => by cases hnone.2.1
  exact ⟨node, own, node', other, hacted, hacted', hfirst, hsecond⟩

theorem swap : doc.Meet b a second first where
  target := h.target.symm
  regular := h.regular'
  regular' := h.regular
  nodup := by
    have hnodup := h.nodup
    simp only [arrivalIds_eq_flatMap, List.flatMap_cons, List.flatMap_nil, List.append_nil] at hnodup ⊢
    exact List.nodup_append_comm.1 hnodup
  fresh := fun id hid => h.fresh id <| by
    simp only [mem_arrivalIds, List.mem_cons, List.not_mem_nil, or_false] at hid ⊢
    obtain ⟨edit, hedit, hid⟩ := hid
    exact ⟨edit, hedit.symm, hid⟩
  taken := h.taken'
  taken' := h.taken

omit h in
theorem sublist_arrivalIds : ((a.change.payload ++ b.change.payload).map Element.id).Sublist
    (arrivalIds [a, b]) := by
  rw [arrivalIds, arrivals, List.flatMap_cons, List.flatMap_cons, List.flatMap_nil, List.append_nil]
  exact ((Element.sublist_flatMap_preorder _).append (Element.sublist_flatMap_preorder _)).map _

theorem nodup_payload : ((a.change.payload ++ b.change.payload).map Element.id).Nodup :=
  h.nodup.sublist sublist_arrivalIds

theorem id_ne_of_mem_payload {v w : Element} (hv : v ∈ a.change.payload) (hw : w ∈ b.change.payload) :
    v.id ≠ w.id := by
  have hnodup := h.nodup_payload
  rw [List.map_append, List.nodup_append] at hnodup
  exact hnodup.2.2 _ (List.mem_map_of_mem hv) _ (List.mem_map_of_mem hw)

theorem not_agrees_of_mem_payload {v w : Element} (hv : v ∈ a.change.payload)
    (hw : w ∈ b.change.payload) : (v == w) = false :=
  Bool.eq_false_iff.2 fun hagree => h.id_ne_of_mem_payload hv hw (Element.id_eq_of_agrees hagree)

include hdoc in
theorem not_mem_ids {v : Element} (hv : v ∈ a.change.payload ++ b.change.payload) :
    v.id ∉ doc.snapshot.ids := by
  intro hmem
  rw [hdoc.mem_ids_snapshot, h.fresh _ (sublist_arrivalIds.subset (List.mem_map_of_mem hv))] at hmem
  cases hmem

include hdoc in
theorem nodup_with_children {x : Element} (hx : x ∈ doc.snapshot.preorder) :
    ((x.content.children ++ (a.change.payload ++ b.change.payload)).map Element.id).Nodup := by
  rw [List.map_append, List.nodup_append]
  refine ⟨Element.nodup_children hdoc.nodup_snapshot hx, h.nodup_payload, ?_⟩
  intro id hchild other hother heq
  obtain ⟨child, hmem, rfl⟩ := List.mem_map.1 hchild
  obtain ⟨v, hv, rfl⟩ := List.mem_map.1 hother
  exact h.not_mem_ids hdoc hv (heq ▸ Element.mem_ids_of_mem_children hx hmem)

theorem clear (hdelta : ¬(a.change.isDelta = true ∧ b.change.isDelta = true)) : a.Clear b where
  compatible := ⟨h.regular.lawful, h.regular'.lawful, fun _ ha hb => hdelta ⟨ha.2.1, hb.2.1⟩⟩
  regular := h.regular
  regular' := h.regular'
  news := by
    have hnodup := h.nodup
    simp only [arrivalIds_eq_flatMap, List.flatMap_cons, List.flatMap_nil, List.append_nil] at hnodup
    exact fun id ha hb => (List.nodup_append.1 hnodup).2.2 id ha id hb rfl
  spares := by
    intro _ hmem
    obtain ⟨node, own, -, -, hacted, -⟩ := h.exists_acted
    have hthere := contains_iff.2 ⟨node, hacted.found⟩
    rw [h.fresh _ (mem_arrivalIds.2 ⟨b, by simp, hmem⟩)] at hthere
    cases hthere

include hdoc in
/-- Two edits of one element can be reconciled and applied behind each other. -/
theorem exists_meeting {σ γ : Type} (facet : Facet σ γ) {c d : γ} {state : σ}
    (ha : a.change = facet.change c) (hb : b.change = facet.change d)
    (hstate : .mk a.target (facet.content state) ∈ doc.snapshot.preorder) :
    Nonempty (Meeting facet doc a b c d first second state) := by
  obtain ⟨node, own, node', other, hacted, hacted', rfl, rfl⟩ := h.exists_acted
  have hdelta : ¬(a.change.isDelta = true ∧ b.change.isDelta = true) := fun hboth => by
    rw [ha, facet.isDelta_eq] at hboth
    cases hboth.1
  have hclear := h.clear hdelta
  have hmem : a.target ∈ doc.snapshot.ids := Element.mem_ids_of_mem_preorder hstate
  have hkeyed : (facet.content state).Keyed := by
    obtain ⟨x, hx, hid, -, hkeyed, -, -⟩ := hdoc.exists_target hmem
    rwa [Element.eq_of_mem_preorder hdoc.nodup_snapshot hx hstate hid] at hkeyed
  have hfound := hacted'.found
  rw [h.target, hacted.found] at hfound
  cases hfound
  -- the rule is found by what the target shows
  have hkeyedNode := hdoc.keyed hacted.found
  obtain ⟨wide, wide', -, hrule, -, -⟩ := Change.joins_transform h.regular.lawful h.regular'.lawful
    hdelta (view_of_revise hkeyedNode hacted.planned) (view_of_revise hkeyedNode hacted'.planned)
  have htransform : a.transform b = .ok (a.after wide, b.after wide') := by
    simp [Edit.transform, Edit.reconcile, hacted.active, hacted'.active, h.target, hrule, Except.map]
  obtain ⟨hrebased, hrebased'⟩ :=
    Edit.rebased_of_transform h.regular.lawful h.regular'.lawful htransform
  obtain ⟨record, left, record', right, hleft, hright, -⟩ :=
    exists_crossing_acted hdoc hacted hacted' hclear (h.swap.clear fun hboth => hdelta hboth.symm)
      htransform
  -- both orders as edits of the tree
  obtain ⟨content, hcontent, hfirst⟩ := hacted.exists_content hdoc h.regular hstate rfl
  obtain ⟨content', hcontent', hsecond⟩ :=
    hacted'.exists_content hdoc h.regular' hstate h.target.symm
  rw [h.target] at hsecond
  obtain ⟨whole, hwhole, hsnapshot⟩ := (hacted.sound hdoc h.regular).exists_content_after hfirst hmem
    hacted'.active h.target (hrebased'.regular h.regular') hleft
  obtain ⟨whole', hwhole', hsnapshot'⟩ := (hacted'.sound hdoc h.regular').exists_content_after hsecond
    hmem hacted.active rfl (hrebased.regular h.regular) hright
  -- and as edits of the part that is changed
  rw [ha, hb, facet.transform_eq] at hrule
  obtain ⟨outcome, outcome', hrule', rfl, rfl⟩ := Reconciled.exists_of_lift hrule
  rw [ha] at hcontent
  rw [hb] at hcontent'
  obtain ⟨after, hafter, rfl⟩ := Option.map_eq_some_iff.1 ((facet.edit?_eq state c).symm.trans hcontent)
  obtain ⟨after', hafter', rfl⟩ :=
    Option.map_eq_some_iff.1 ((facet.edit?_eq state d).symm.trans hcontent')
  rw [Outcome.follow_map facet.edit?_eq] at hwhole hwhole'
  obtain ⟨merged, hmerged, rfl⟩ := Option.map_eq_some_iff.1 hwhole
  obtain ⟨merged', hmerged', rfl⟩ := Option.map_eq_some_iff.1 hwhole'
  exact ⟨⟨after, after', outcome, outcome', merged, merged', hkeyed, hafter, hafter', hrule', hmerged,
    hmerged', ⟨hstate, htransform, ⟨record, left, hleft, hsnapshot⟩,
      ⟨record', right, hright, hsnapshot'⟩⟩⟩⟩

end Meet

end Document
end CoEdit
