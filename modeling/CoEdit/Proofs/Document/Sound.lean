import CoEdit.Document.Basic
import CoEdit.Proofs.Agreement
import CoEdit.Proofs.Confluence.View

/-!
# Sound documents

In a sound document parents and children name each other and every element hangs below the root. The
ancestors of an element are then fixed by the parent ids and never repeat one, so there are fewer of
them than nodes, and a tree read out with as much fuel as there are nodes is complete
(`Sound.exists_read?`).
-/
namespace CoEdit
namespace Content

variable {α β : Type}

theorem children_filterMap (f : α → Option β) (content : Content α) :
    (content.filterMap f).children = content.children.filterMap f := by
  cases content with
  | object props =>
      change (props.filterMap fun p => (f p.2).map (p.1, ·)).map Prod.snd =
        (props.map Prod.snd).filterMap f
      rw [List.map_filterMap, List.filterMap_map]
      congr 1
      funext p
      cases h : f p.2 <;> simp [h]
  | _ => rfl

theorem keyed_filterMap (f : α → Option β) {content : Content α} (h : content.Keyed) :
    (content.filterMap f).Keyed := by
  cases content with
  | object props =>
      refine List.Nodup.sublist ?_ h
      change ((props.filterMap fun p => (f p.2).map (p.1, ·)).map Prod.fst).Sublist
        (props.map Prod.fst)
      induction props with
      | nil => exact .slnil
      | cons p rest ih =>
          have hrest := ih (List.nodup_cons.1 h).2
          cases hp : f p.2 with
          | none => simpa [hp] using hrest.cons p.1
          | some b => simpa [hp] using hrest.cons_cons p.1
  | _ => trivial

theorem keyed_map (f : α → β) {content : Content α} (h : content.Keyed) :
    (content.map f).Keyed := by
  cases content with
  | object props =>
      change ((props.map fun p => (p.1, f p.2)).map Prod.fst).Nodup
      rw [List.map_map]
      exact h
  | _ => trivial

theorem map_filterMap {f : α → Option β} {g : β → α} {content : Content α}
    (h : ∀ child ∈ content.children, (f child).map g = some child) :
    (content.filterMap f).map g = content := by
  cases content with
  | array items =>
      have hitems : ∀ child ∈ items, (f child).map g = some child := h
      change Content.array ((items.filterMap f).map g) = _
      rw [List.map_filterMap, List.filterMap_congr hitems, List.filterMap_some]
  | object props =>
      have hprops : ∀ p ∈ props,
          ((f p.2).map (p.1, ·)).map (fun q => (q.1, g q.2)) = some p := by
        rintro ⟨name, child⟩ hp
        have hchild := h child (List.mem_map.2 ⟨_, hp, rfl⟩)
        cases hf : f child with
        | none =>
            rw [hf] at hchild
            cases hchild
        | some b =>
            rw [hf] at hchild
            simp only [Option.map_some, Option.some.injEq] at hchild ⊢
            rw [hchild]
      change Content.object ((props.filterMap fun p => (f p.2).map (p.1, ·)).map
        fun q => (q.1, g q.2)) = _
      rw [List.map_filterMap, List.filterMap_congr hprops, List.filterMap_some]
  | _ => rfl

end Content

namespace Element

theorem mem_preorder_mk {id : ElementId} {content : Content Element} {x : Element} :
    x ∈ preorder (.mk id content) ↔ x = .mk id content ∨
      ∃ child ∈ content.children, x ∈ child.preorder := by
  rw [preorder_mk, preorderContent_eq, List.mem_cons, List.mem_flatMap]

theorem forall_preorder_mk {p : Element → Prop} {id : ElementId} {content : Content Element} :
    (∀ x ∈ preorder (.mk id content), p x) ↔
      p (.mk id content) ∧ ∀ child ∈ content.children, ∀ x ∈ child.preorder, p x := by
  simp only [mem_preorder_mk]
  constructor
  · exact fun h => ⟨h _ (.inl rfl), fun child hchild x hx => h x (.inr ⟨child, hchild, hx⟩)⟩
  · rintro ⟨hroot, hchildren⟩ x (rfl | ⟨child, hchild, hx⟩)
    · exact hroot
    · exact hchildren child hchild x hx

theorem mem_ids_mk {id other : ElementId} {content : Content Element} :
    other ∈ ids (.mk id content) ↔ other = id ∨ ∃ child ∈ content.children, other ∈ child.ids := by
  rw [ids, List.mem_map]
  simp only [mem_preorder_mk]
  constructor
  · rintro ⟨x, rfl | ⟨child, hchild, hx⟩, rfl⟩
    · exact .inl rfl
    · exact .inr ⟨child, hchild, List.mem_map_of_mem hx⟩
  · rintro (rfl | ⟨child, hchild, hother⟩)
    · exact ⟨_, .inl rfl, rfl⟩
    · obtain ⟨x, hx, rfl⟩ := List.mem_map.1 hother
      exact ⟨x, .inr ⟨child, hchild, hx⟩, rfl⟩

theorem keyed_mk {id : ElementId} {content : Content Element} :
    Keyed (.mk id content) ↔ content.Keyed ∧ ∀ child ∈ content.children, child.Keyed :=
  forall_preorder_mk

end Element

namespace Arena

/-- The ancestors of `id`, nearest first, each listing the one before among its children. -/
inductive Lineage (nodes : Arena) : ElementId → List ElementId → Prop
  | root {id : ElementId} {content : Content ElementId}
      (found : Entries.find? id nodes = some ⟨none, content⟩) : Lineage nodes id []
  | child {id parent : ElementId} {content : Content ElementId} {node : Node}
      {ancestors : List ElementId} (found : Entries.find? id nodes = some ⟨some parent, content⟩)
      (above : Entries.find? parent nodes = some node) (listed : id ∈ node.content.children)
      (rest : Lineage nodes parent ancestors) : Lineage nodes id (parent :: ancestors)

/-- Whether `id` is `top` or lies below it. -/
def Under (nodes : Arena) (top id : ElementId) : Prop :=
  ∃ ancestors, Lineage nodes id ancestors ∧ top ∈ id :: ancestors

variable {nodes : Arena} {id top : ElementId} {ancestors : List ElementId}

namespace Lineage

theorem attached (h : Lineage nodes id ancestors) {other : ElementId}
    (hother : other ∈ id :: ancestors) : ∃ node, Entries.find? other nodes = some node := by
  induction h with
  | root found =>
      rw [List.mem_singleton.1 hother]
      exact ⟨_, found⟩
  | child found above listed rest ih =>
      rcases List.mem_cons.1 hother with rfl | hother
      · exact ⟨_, found⟩
      · exact ih hother

theorem parent_mem (h : Lineage nodes id ancestors) {other parent : ElementId}
    {content : Content ElementId} (hother : other ∈ id :: ancestors)
    (hfound : Entries.find? other nodes = some ⟨some parent, content⟩) : parent ∈ ancestors := by
  induction h with
  | root found =>
      rw [List.mem_singleton.1 hother, found] at hfound
      cases hfound
  | child found above listed rest ih =>
      rcases List.mem_cons.1 hother with rfl | hother
      · rw [found] at hfound
        cases hfound
        exact List.mem_cons_self
      · exact List.mem_cons_of_mem _ (ih hother)

theorem nodup (h : Lineage nodes id ancestors) : (id :: ancestors).Nodup := by
  induction h with
  | root found => exact List.nodup_singleton _
  | child found above listed rest ih =>
      refine List.nodup_cons.2 ⟨fun hmem => ?_, ih⟩
      exact (List.nodup_cons.1 ih).1 (rest.parent_mem hmem found)

theorem unique (h : Lineage nodes id ancestors) {others : List ElementId}
    (h' : Lineage nodes id others) : ancestors = others := by
  induction h generalizing others with
  | root found =>
      cases h' with
      | root => rfl
      | child found' =>
          rw [found] at found'
          cases found'
  | child found above listed rest ih =>
      cases h' with
      | root found' =>
          rw [found] at found'
          cases found'
      | child found' _ _ rest' =>
          rw [found] at found'
          cases found'
          rw [ih rest']

theorem length_lt (h : Lineage nodes id ancestors) : ancestors.length < nodes.length := by
  have hsub : id :: ancestors ⊆ Entries.keys nodes := by
    intro other hother
    obtain ⟨node, hnode⟩ := h.attached hother
    exact Entries.mem_keys_of_find? hnode
  have hle := (List.subperm_of_subset h.nodup hsub).length_le
  rw [Entries.keys, List.length_map, List.length_cons] at hle
  exact hle

theorem exists_child (h : Lineage nodes id ancestors) (htop : top ∈ ancestors) :
    ∃ child ∈ id :: ancestors, ∃ node, Entries.find? top nodes = some node ∧
      child ∈ node.content.children := by
  induction h with
  | root found => cases htop
  | child found above listed rest ih =>
      rcases List.mem_cons.1 htop with rfl | htop
      · exact ⟨_, List.mem_cons_self, _, above, listed⟩
      · obtain ⟨child, hchild, hrest⟩ := ih htop
        exact ⟨child, List.mem_cons_of_mem _ hchild, hrest⟩

end Lineage

end Arena

namespace Document
open Arena

/-- The nodes of the document form one tree under its root, in which no child and no property name is
listed twice. -/
structure Sound (doc : Document) : Prop where
  root : ∃ content, Entries.find? doc.root doc.nodes = some ⟨none, content⟩
  orphan : ∀ {id content}, Entries.find? id doc.nodes = some ⟨none, content⟩ → id = doc.root
  listed : ∀ {id node child}, Entries.find? id doc.nodes = some node →
    child ∈ node.content.children →
    ∃ content, Entries.find? child doc.nodes = some ⟨some id, content⟩
  children : ∀ {id node}, Entries.find? id doc.nodes = some node → node.content.children.Nodup
  keyed : ∀ {id node}, Entries.find? id doc.nodes = some node → node.content.Keyed
  reached : ∀ {id node}, Entries.find? id doc.nodes = some node →
    ∃ ancestors, Lineage doc.nodes id ancestors

variable {doc : Document} {id child top : ElementId} {node : Node}

theorem contains_iff : doc.contains id = true ↔ ∃ node, Entries.find? id doc.nodes = some node :=
  Option.isSome_iff_exists

theorem not_contains_iff : doc.contains id = false ↔ Entries.find? id doc.nodes = none := by
  simp [contains, Entries.contains]

namespace Sound

theorem contains_root (h : doc.Sound) : doc.contains doc.root = true := by
  obtain ⟨content, hroot⟩ := h.root
  exact contains_iff.2 ⟨_, hroot⟩

theorem lineage_child (h : doc.Sound) {ancestors : List ElementId}
    (hid : Lineage doc.nodes id ancestors) (hnode : Entries.find? id doc.nodes = some node)
    (hchild : child ∈ node.content.children) : Lineage doc.nodes child (id :: ancestors) := by
  obtain ⟨content, hfound⟩ := h.listed hnode hchild
  exact .child hfound hnode hchild hid

theorem child_not_mem (h : doc.Sound) {ancestors : List ElementId}
    (hid : Lineage doc.nodes id ancestors) (hnode : Entries.find? id doc.nodes = some node)
    (hchild : child ∈ node.content.children) : child ∉ id :: ancestors :=
  (List.nodup_cons.1 (h.lineage_child hid hnode hchild).nodup).1

theorem under_self (h : doc.Sound) (hnode : Entries.find? id doc.nodes = some node) :
    Under doc.nodes id id := by
  obtain ⟨ancestors, hid⟩ := h.reached hnode
  exact ⟨ancestors, hid, List.mem_cons_self⟩

theorem under_root (h : doc.Sound) (hnode : Entries.find? id doc.nodes = some node) :
    Under doc.nodes doc.root id := by
  obtain ⟨ancestors, hid⟩ := h.reached hnode
  refine ⟨ancestors, hid, ?_⟩
  clear hnode
  induction hid with
  | root found => exact List.mem_singleton.2 (h.orphan found).symm
  | child found above listed rest ih => exact List.mem_cons_of_mem _ ih

/-- What lies under an element is the element and what lies under its children. -/
theorem under_iff (h : doc.Sound) (hnode : Entries.find? top doc.nodes = some node) :
    Under doc.nodes top id ↔ id = top ∨ ∃ child ∈ node.content.children,
      Under doc.nodes child id := by
  constructor
  · rintro ⟨ancestors, hid, hmem⟩
    rcases List.mem_cons.1 hmem with rfl | hmem
    · exact .inl rfl
    · obtain ⟨child, hchild, node', hfound, hlisted⟩ := hid.exists_child hmem
      rw [hnode] at hfound
      cases hfound
      exact .inr ⟨child, hlisted, ancestors, hid, hchild⟩
  · rintro (rfl | ⟨child, hchild, ancestors, hid, hmem⟩)
    · exact h.under_self hnode
    · obtain ⟨content, hfound⟩ := h.listed hnode hchild
      exact ⟨ancestors, hid, List.mem_cons_of_mem _ (hid.parent_mem hmem hfound)⟩

end Sound

/-! ## Reading trees out -/

/-- The tree `tree` is all of what lies under `id`. -/
structure Holds (doc : Document) (id : ElementId) (tree : Element) : Prop where
  id_eq : tree.id = id
  keyed : tree.Keyed
  mem_ids : ∀ other, other ∈ tree.ids ↔ Under doc.nodes id other
  found : ∀ x ∈ tree.preorder, ∃ node, Entries.find? x.id doc.nodes = some node ∧
    x.content.map Element.id = node.content

/-- Fuel for the nodes that are no ancestors is enough to read a tree out. -/
theorem Sound.exists_read? (h : doc.Sound) {fuel : Nat} {ancestors : List ElementId}
    (hid : Lineage doc.nodes id ancestors) (hfuel : doc.nodes.length ≤ fuel + ancestors.length) :
    ∃ tree, read? doc.nodes fuel id = some tree ∧ doc.Holds id tree := by
  induction fuel generalizing id ancestors with
  | zero =>
      have hlt := hid.length_lt
      omega
  | succ fuel ih =>
      obtain ⟨node, hnode⟩ := hid.attached List.mem_cons_self
      have hbelow : ∀ child ∈ node.content.children,
          ∃ tree, read? doc.nodes fuel child = some tree ∧ doc.Holds child tree := by
        intro child hchild
        have hlen : (id :: ancestors).length = ancestors.length + 1 := rfl
        exact ih (h.lineage_child hid hnode hchild) (by omega)
      have hchildren (x : Element) :
          x ∈ (node.content.filterMap (read? doc.nodes fuel)).children ↔
            ∃ child ∈ node.content.children, read? doc.nodes fuel child = some x := by
        rw [Content.children_filterMap, List.mem_filterMap]
      have hread : ∀ x ∈ (node.content.filterMap (read? doc.nodes fuel)).children,
          ∃ child ∈ node.content.children, doc.Holds child x := by
        intro x hx
        obtain ⟨child, hchild, hx⟩ := (hchildren x).1 hx
        obtain ⟨tree, htree, hholds⟩ := hbelow child hchild
        rw [hx] at htree
        cases htree
        exact ⟨child, hchild, hholds⟩
      refine ⟨.mk id (node.content.filterMap (read? doc.nodes fuel)), by simp [read?, hnode], rfl,
        ?_, ?_, ?_⟩
      · refine Element.keyed_mk.2 ⟨Content.keyed_filterMap _ (h.keyed hnode), fun x hx => ?_⟩
        obtain ⟨child, -, hholds⟩ := hread x hx
        exact hholds.keyed
      · intro other
        rw [Element.mem_ids_mk, h.under_iff hnode]
        refine or_congr_right ⟨?_, ?_⟩
        · rintro ⟨x, hx, hother⟩
          obtain ⟨child, hchild, hholds⟩ := hread x hx
          exact ⟨child, hchild, (hholds.mem_ids other).1 hother⟩
        · rintro ⟨child, hchild, hunder⟩
          obtain ⟨tree, htree, hholds⟩ := hbelow child hchild
          exact ⟨tree, (hchildren tree).2 ⟨child, hchild, htree⟩, (hholds.mem_ids other).2 hunder⟩
      · intro x hx
        rcases Element.mem_preorder_mk.1 hx with rfl | ⟨y, hy, hx⟩
        · refine ⟨node, hnode, Content.map_filterMap fun child hchild => ?_⟩
          obtain ⟨tree, htree, hholds⟩ := hbelow child hchild
          rw [htree, Option.map_some, hholds.id_eq]
        · obtain ⟨child, -, hholds⟩ := hread y hy
          exact hholds.found x hx

theorem Sound.holds_subtree (h : doc.Sound) (hid : doc.contains id = true) :
    doc.Holds id (doc.subtree id) := by
  obtain ⟨node, hnode⟩ := contains_iff.1 hid
  obtain ⟨ancestors, hlineage⟩ := h.reached hnode
  obtain ⟨tree, htree, hholds⟩ := h.exists_read? hlineage (Nat.le_add_right _ _)
  rwa [subtree, value?, htree]

theorem Sound.holds_snapshot (h : doc.Sound) : doc.Holds doc.root doc.snapshot :=
  h.holds_subtree h.contains_root

theorem Sound.mem_ids_snapshot (h : doc.Sound) :
    id ∈ doc.snapshot.ids ↔ doc.contains id = true := by
  rw [h.holds_snapshot.mem_ids]
  constructor
  · rintro ⟨ancestors, hid, -⟩
    exact contains_iff.2 (hid.attached List.mem_cons_self)
  · intro hid
    obtain ⟨node, hnode⟩ := contains_iff.1 hid
    exact h.under_root hnode

end Document
end CoEdit
