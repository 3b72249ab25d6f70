import CoEdit.Proofs.Document.Apply
import CoEdit.Proofs.Document.Trees

/-!
# Trees stored in an arena

A tree is stored in an arena if every element of it has a node that lists the same children. An arena
stores at most one tree under each id (`Stored.eq`), so to know what a document holds under an id it is
enough to exhibit a tree and to find its nodes (`Sound.subtree_eq`). In a sound document siblings have
nothing in common, hence no tree that is read out repeats an id (`Sound.nodup_ids`).
-/
namespace CoEdit

theorem Content.eq_of_map_eq {α β : Type} {f : α → β} {content other : Content α}
    (h : content.map f = other.map f)
    (hinj : ∀ x ∈ content.children, ∀ y ∈ other.children, f x = f y → x = y) :
    content = other := by
  cases content with
  | array xs =>
      cases other with
      | array ys =>
          have hall : List.Forall₂ Eq xs ys :=
            Element.forall₂_of_map_eq (Content.array.inj h) hinj
          rw [List.forall₂_eq_eq_eq] at hall
          rw [hall]
      | _ => cases h
  | object ps =>
      cases other with
      | object qs =>
          have hall : List.Forall₂ Eq ps qs := by
            refine Element.forall₂_of_map_eq (Content.object.inj h) fun p hp q hq hpq => ?_
            obtain ⟨hname, hvalue⟩ := Prod.mk.inj hpq
            exact Prod.ext hname
              (hinj p.2 (List.mem_map_of_mem hp) q.2 (List.mem_map_of_mem hq) hvalue)
          rw [List.forall₂_eq_eq_eq] at hall
          rw [hall]
      | _ => cases h
  | _ =>
      cases other <;> cases h
      rfl

namespace Element

/-- Every element of the tree has a node that lists the same children. -/
def Stored (nodes : Arena) (tree : Element) : Prop :=
  ∀ x ∈ tree.preorder, ∃ node, Entries.find? x.id nodes = some node ∧
    x.content.map Element.id = node.content

variable {nodes : Arena} {tree other : Element}

theorem stored_mk {id : ElementId} {content : Content Element} :
    Stored nodes (.mk id content) ↔
      (∃ node, Entries.find? id nodes = some node ∧ content.map Element.id = node.content) ∧
        ∀ child ∈ content.children, child.Stored nodes :=
  forall_preorder_mk

theorem Stored.eq (htree : tree.Stored nodes) (hother : other.Stored nodes)
    (hid : tree.id = other.id) : tree = other := by
  induction tree using Element.induction generalizing other with
  | mk id content ih =>
      rcases other with ⟨id', content'⟩
      have hids : id = id' := hid
      subst hids
      obtain ⟨⟨node, hnode, hcontent⟩, hchildren⟩ := stored_mk.1 htree
      obtain ⟨⟨node', hnode', hcontent'⟩, hchildren'⟩ := stored_mk.1 hother
      rw [hnode] at hnode'
      cases hnode'
      congr 1
      exact Content.eq_of_map_eq (hcontent.trans hcontent'.symm) fun x hx y hy hxy =>
        ih x hx (hchildren x hx) (hchildren' y hy) hxy

theorem Stored.children {x : Element} (h : x.Stored nodes) :
    ∀ child ∈ x.content.children, child.Stored nodes := by
  rcases x with ⟨id, content⟩
  exact (stored_mk.1 h).2

theorem mem_preorder_self (tree : Element) : tree ∈ tree.preorder := by
  rcases tree with ⟨id, content⟩
  exact mem_preorder_mk.2 (.inl rfl)

theorem mem_ids_of_mem_preorder {x : Element} (hx : x ∈ tree.preorder) : x.id ∈ tree.ids :=
  List.mem_map_of_mem hx

theorem preorder_subset {x : Element} (hx : x ∈ tree.preorder) : x.preorder ⊆ tree.preorder := by
  induction tree using Element.induction with
  | mk id content ih =>
      rcases mem_preorder_mk.1 hx with rfl | ⟨child, hchild, hx⟩
      · exact fun _ hy => hy
      · exact fun y hy => mem_preorder_mk.2 (.inr ⟨child, hchild, ih child hchild hx hy⟩)

theorem Stored.below {x : Element} (h : tree.Stored nodes) (hx : x ∈ tree.preorder) :
    x.Stored nodes := fun y hy => h y (preorder_subset hx hy)

end Element

namespace Arena

theorem Lineage.siblings_eq {nodes : Arena} {id parent left right : ElementId}
    {ancestors : List ElementId} {content content' : Content ElementId}
    (h : Lineage nodes id ancestors) (hleft : left ∈ id :: ancestors)
    (hright : right ∈ id :: ancestors)
    (hfound : Entries.find? left nodes = some ⟨some parent, content⟩)
    (hfound' : Entries.find? right nodes = some ⟨some parent, content'⟩) : left = right := by
  induction h with
  | root found => rw [List.mem_singleton.1 hleft, List.mem_singleton.1 hright]
  | child found above listed rest ih =>
      have hnodup := rest.nodup
      rcases List.mem_cons.1 hleft with rfl | hleftAbove
      · rcases List.mem_cons.1 hright with rfl | hrightAbove
        · rfl
        · rw [found] at hfound
          cases hfound
          exact absurd (rest.parent_mem hrightAbove hfound') (List.nodup_cons.1 hnodup).1
      · rcases List.mem_cons.1 hright with rfl | hrightAbove
        · rw [found] at hfound'
          cases hfound'
          exact absurd (rest.parent_mem hleftAbove hfound) (List.nodup_cons.1 hnodup).1
        · exact ih hleftAbove hrightAbove

end Arena

namespace Document
open Arena

variable {doc : Document} {id : ElementId} {tree : Element}

theorem Holds.stored (h : doc.Holds id tree) : tree.Stored doc.nodes := h.found

/-- What is stored under the id of a tree is that tree. -/
theorem Sound.subtree_eq (h : doc.Sound) (htree : tree.Stored doc.nodes) :
    doc.subtree tree.id = tree := by
  rcases tree with ⟨id, content⟩
  obtain ⟨⟨node, hnode, -⟩, -⟩ := Element.stored_mk.1 htree
  have hholds := h.holds_subtree (contains_iff.2 ⟨node, hnode⟩)
  exact hholds.stored.eq htree hholds.id_eq

theorem Sound.mem_ids_iff (h : doc.Sound) (htree : tree.Stored doc.nodes) {other : ElementId} :
    other ∈ tree.ids ↔ Under doc.nodes tree.id other := by
  have hsame := h.subtree_eq htree
  rcases tree with ⟨id, content⟩
  obtain ⟨⟨node, hnode, -⟩, -⟩ := Element.stored_mk.1 htree
  have hholds := h.holds_subtree (contains_iff.2 ⟨node, hnode⟩)
  have hmem := hholds.mem_ids other
  rwa [show doc.subtree id = .mk id content from hsame] at hmem

theorem Sound.children_apart (h : doc.Sound) {node : Node} {left right : ElementId}
    (hnode : Entries.find? id doc.nodes = some node) (hleft : left ∈ node.content.children)
    (hright : right ∈ node.content.children) {other : ElementId}
    (hunder : Under doc.nodes left other) (hunder' : Under doc.nodes right other) :
    left = right := by
  obtain ⟨ancestors, hlineage, hmem⟩ := hunder
  obtain ⟨ancestors', hlineage', hmem'⟩ := hunder'
  cases hlineage.unique hlineage'
  obtain ⟨content, hfound⟩ := h.listed hnode hleft
  obtain ⟨content', hfound'⟩ := h.listed hnode hright
  exact hlineage.siblings_eq hmem hmem' hfound hfound'

theorem Sound.nodup_flatMap_ids (h : doc.Sound) {node : Node} {trees : List Element}
    (hnode : Entries.find? id doc.nodes = some node)
    (hlisted : ∀ tree ∈ trees, tree.id ∈ node.content.children)
    (hstored : ∀ tree ∈ trees, tree.Stored doc.nodes) (hids : (trees.map Element.id).Nodup)
    (hnodup : ∀ tree ∈ trees, tree.ids.Nodup) : (trees.flatMap Element.ids).Nodup := by
  rw [List.nodup_flatMap]
  refine ⟨hnodup, List.Pairwise.imp_of_mem ?_ (List.pairwise_map.1 hids)⟩
  intro left right hleft hright hne
  refine List.disjoint_left.2 fun other hother hother' => hne ?_
  exact h.children_apart hnode (hlisted left hleft) (hlisted right hright)
    ((h.mem_ids_iff (hstored left hleft)).1 hother)
    ((h.mem_ids_iff (hstored right hright)).1 hother')

/-- A tree of a sound document repeats no id. -/
theorem Sound.nodup_ids (h : doc.Sound) (htree : tree.Stored doc.nodes) : tree.ids.Nodup := by
  induction tree using Element.induction with
  | mk id content ih =>
      obtain ⟨⟨node, hnode, hcontent⟩, hchildren⟩ := Element.stored_mk.1 htree
      have hids : content.children.map Element.id = node.content.children := by
        rw [← hcontent, Content.children_map]
      rw [Element.ids_mk, List.nodup_cons]
      constructor
      · intro hmem
        obtain ⟨child, hchild, hmem⟩ := List.mem_flatMap.1 hmem
        obtain ⟨ancestors, hlineage, hother⟩ := (h.mem_ids_iff (hchildren child hchild)).1 hmem
        exact h.child_not_mem hlineage hnode (hids ▸ List.mem_map_of_mem hchild) hother
      · refine h.nodup_flatMap_ids hnode (fun tree hmem => hids ▸ List.mem_map_of_mem hmem)
          hchildren ?_ fun child hchild => ih child hchild (hchildren child hchild)
        rw [hids]
        exact h.children hnode

theorem Sound.nodup_snapshot (h : doc.Sound) : doc.snapshot.ids.Nodup :=
  h.nodup_ids h.holds_snapshot.stored

end Document
end CoEdit
