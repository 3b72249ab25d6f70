import CoEdit.Proofs.Document.Stored

/-!
# Documents that are alike

Taking an edit back need not lead to the very document from before it: a number that was added to may
come out rounded, and a property that was removed comes back as the last one. Two documents are alike if
they have one root and every element of the one is in the other with the same content, except that some
numbers may differ and that the properties of some objects may be in another order. Parents, ancestors
and what lies under an element are then the same in both (`Alike.under_iff`), and where there are no
exceptions the documents hold the same tree (`Alike.snapshot_eq`).
-/
namespace CoEdit

/-- The contents are the same, except that numbers may differ where `loose` holds and properties may be
in another order where `reordered` holds. -/
inductive Content.Alike {α : Type} (loose reordered : Prop) : Content α → Content α → Prop
  | refl (content : Content α) : Alike loose reordered content content
  | number (free : loose) (x y : Float) : Alike loose reordered (.number x) (.number y)
  | object {ps qs : List (String × α)} (free : reordered) (perm : ps.Perm qs) :
      Alike loose reordered (.object ps) (.object qs)

namespace Content.Alike

variable {α β : Type} {loose loose' reordered reordered' : Prop} {content other : Content α}

theorem mono (h : content.Alike loose reordered other) (hloose : loose → loose')
    (hreordered : reordered → reordered') : content.Alike loose' reordered' other := by
  cases h with
  | refl content => exact .refl content
  | number free x y => exact .number (hloose free) x y
  | object free perm => exact .object (hreordered free) perm

theorem children_perm (h : content.Alike loose reordered other) :
    content.children.Perm other.children := by
  cases h with
  | refl content => exact .refl _
  | number free x y => exact .refl _
  | object free perm => exact perm.map Prod.snd

theorem eq_of_exact (h : content.Alike loose reordered other) (hloose : ¬loose)
    (hreordered : ¬reordered) : content = other := by
  cases h with
  | refl content => rfl
  | number free x y => exact absurd free hloose
  | object free perm => exact absurd free hreordered

theorem exists_props {ps : List (String × α)}
    (h : (Content.object ps).Alike loose reordered other) : ∃ qs, other = .object qs := by
  cases h with
  | refl content => exact ⟨ps, rfl⟩
  | object free perm => exact ⟨_, rfl⟩

theorem perm_props {ps qs : List (String × α)}
    (h : (Content.object ps).Alike loose reordered (.object qs)) : ps.Perm qs := by
  cases h with
  | refl content => exact .refl ps
  | object free perm => exact perm

theorem map_props {ps qs : List (String × α)} {f : List (String × α) → List (String × α)}
    (h : (Content.object ps).Alike loose reordered (.object qs))
    (hf : ps.Perm qs → (f ps).Perm (f qs)) :
    (Content.object (f ps)).Alike loose reordered (.object (f qs)) := by
  cases h with
  | refl content => exact .refl _
  | object free perm => exact .object free (hf perm)

end Content.Alike

namespace Document
open Arena

/-- The documents have one root, and each element of `doc` is in `other` with the same content, except
for the `numbers` and for the order of properties in the `objects`. -/
structure Alike (numbers objects : ElementId → Prop) (doc other : Document) : Prop where
  root : other.root = doc.root
  content : ∀ {id node}, Entries.find? id doc.nodes = some node →
    ∃ node', Entries.find? id other.nodes = some node' ∧
      node.content.Alike (numbers id) (objects id) node'.content

namespace Alike

variable {doc other : Document} {numbers numbers' objects objects' : ElementId → Prop}
  {id top : ElementId}

theorem refl (doc : Document) (numbers objects : ElementId → Prop) :
    Alike numbers objects doc doc :=
  ⟨rfl, fun hnode => ⟨_, hnode, .refl _⟩⟩

theorem mono (h : Alike numbers objects doc other) (hnumbers : ∀ id, numbers id → numbers' id)
    (hobjects : ∀ id, objects id → objects' id) : Alike numbers' objects' doc other :=
  ⟨h.root, fun hnode => by
    obtain ⟨node', hnode', halike⟩ := h.content hnode
    exact ⟨node', hnode', halike.mono (hnumbers _) (hobjects _)⟩⟩

variable (hdoc : doc.Sound) (hother : other.Sound) (h : Alike numbers objects doc other)
include hdoc hother h

theorem exists_node {parent : Option ElementId} {content : Content ElementId}
    (hnode : Entries.find? id doc.nodes = some ⟨parent, content⟩) :
    ∃ content', Entries.find? id other.nodes = some ⟨parent, content'⟩ ∧
      content.Alike (numbers id) (objects id) content' := by
  obtain ⟨⟨parent', content'⟩, hnode', halike⟩ := h.content hnode
  suffices hparent : parent' = parent from ⟨content', hparent ▸ hnode', halike⟩
  cases parent with
  | none =>
      obtain ⟨top, htop⟩ := hother.root
      rw [h.root, ← hdoc.orphan hnode, hnode'] at htop
      cases htop
      rfl
  | some parent =>
      obtain ⟨ancestors, hlineage⟩ := hdoc.reached hnode
      cases hlineage with
      | root found =>
          rw [hnode] at found
          cases found
      | child found above listed rest =>
          rw [hnode] at found
          cases found
          obtain ⟨above', habove', hsame⟩ := h.content above
          obtain ⟨below, hbelow⟩ :=
            hother.listed habove' (hsame.children_perm.mem_iff.1 listed)
          rw [hnode'] at hbelow
          cases hbelow
          rfl

theorem lineage {ancestors : List ElementId} (hid : Lineage doc.nodes id ancestors) :
    Lineage other.nodes id ancestors := by
  induction hid with
  | root found =>
      obtain ⟨content', found', -⟩ := h.exists_node hdoc hother found
      exact .root found'
  | child found above listed rest ih =>
      obtain ⟨content', found', -⟩ := h.exists_node hdoc hother found
      obtain ⟨above', habove', hsame⟩ := h.content above
      exact .child found' habove' (hsame.children_perm.mem_iff.1 listed) ih

/-- The documents have the same elements. -/
theorem contains_iff : other.contains id = true ↔ doc.contains id = true := by
  constructor
  · intro hid
    obtain ⟨node, hnode⟩ := Document.contains_iff.1 hid
    obtain ⟨ancestors, hlineage⟩ := hother.reached hnode
    clear hid hnode
    -- downwards from the root, which both have
    induction hlineage with
    | root found =>
        rw [hother.orphan found, h.root]
        exact hdoc.contains_root
    | child found above listed rest ih =>
        obtain ⟨node, hnode⟩ := Document.contains_iff.1 ih
        obtain ⟨node', hnode', hsame⟩ := h.content hnode
        rw [above] at hnode'
        cases hnode'
        obtain ⟨content, hchild⟩ := hdoc.listed hnode (hsame.children_perm.mem_iff.2 listed)
        exact Document.contains_iff.2 ⟨_, hchild⟩
  · intro hid
    obtain ⟨node, hnode⟩ := Document.contains_iff.1 hid
    obtain ⟨node', hnode', -⟩ := h.content hnode
    exact Document.contains_iff.2 ⟨node', hnode'⟩

theorem under_iff : Under other.nodes top id ↔ Under doc.nodes top id := by
  constructor
  · rintro ⟨ancestors, hid, hmem⟩
    have hattached := Document.contains_iff.2 (hid.attached List.mem_cons_self)
    obtain ⟨node, hnode⟩ := Document.contains_iff.1 ((h.contains_iff hdoc hother).1 hattached)
    obtain ⟨ancestors', hid'⟩ := hdoc.reached hnode
    cases (h.lineage hdoc hother hid').unique hid
    exact ⟨ancestors, hid', hmem⟩
  · rintro ⟨ancestors, hid, hmem⟩
    exact ⟨ancestors, h.lineage hdoc hother hid, hmem⟩

/-- Documents that are alike without exception hold the same tree. -/
theorem snapshot_eq (hnumbers : ∀ id, ¬numbers id) (hobjects : ∀ id, ¬objects id) :
    other.snapshot = doc.snapshot := by
  have hroot : doc.snapshot.id = other.root := hdoc.holds_snapshot.id_eq.trans h.root.symm
  have hstored : doc.snapshot.Stored other.nodes := by
    intro x hx
    obtain ⟨node, hnode, hcontent⟩ := hdoc.holds_snapshot.stored x hx
    obtain ⟨node', hnode', hsame⟩ := h.content hnode
    exact ⟨node', hnode', hcontent.trans (hsame.eq_of_exact (hnumbers _) (hobjects _))⟩
  have hsubtree := hother.subtree_eq hstored
  rwa [hroot] at hsubtree

end Alike
end Document
end CoEdit
