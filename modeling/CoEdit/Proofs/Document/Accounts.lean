import CoEdit.Proofs.Document.Same
import CoEdit.Proofs.Document.Undo

/-!
# What an edit does to the arena, node by node

The record of an edit lists exactly the ids that went, and the edit touches nothing else
(`Reachable.accounts_applyEdit`): what is attached afterwards is what was attached before, less the ids on
record, and what the edit brought along; and apart from the target every node that stays is the one it was.

The list on record is the one that a removal of node after node makes, from the children that the change takes
out downwards (`Arena.TakesOut`). Such a removal works on an arena in which the nodes above are missing
already; that it still finds every node of a tree is due to the ids of the trees being apart
(`Element.takesOut`).
-/
namespace CoEdit

namespace Arena

/-- Nodes are taken out of an arena one by one, each before what it lists and all that before its siblings.
`gone` lists what was taken out and `left` is what remains. An id without a node is passed over. -/
inductive TakesOut : Arena → List ElementId → List ElementId → Arena → Prop
  | done (nodes : Arena) : TakesOut nodes [] [] nodes
  | absent {nodes left : Arena} {id : ElementId} {ids gone : List ElementId}
      (missing : Entries.find? id nodes = none) (rest : TakesOut nodes ids gone left) :
      TakesOut nodes (id :: ids) gone left
  | node {nodes left : Arena} {id : ElementId} {ids gone : List ElementId} {node : Node}
      (found : Entries.find? id nodes = some node)
      (rest : TakesOut (Entries.erase id nodes) (node.content.children ++ ids) gone left) :
      TakesOut nodes (id :: ids) (id :: gone) left

end Arena

/-- Whether changes of the kind remove or overwrite children. -/
def ChangeKind.detaches : ChangeKind → Bool
  | .arrayRemove | .arrayReplace | .arraySet | .objectAssign | .objectRemove | .objectSet => true
  | _ => false

theorem Content.leaving_eq_nil {α : Type} (content : Content α) {change : Change}
    (h : change.kind.detaches = false) : content.leaving change = [] := by
  unfold leaving
  split <;> first | rfl | cases h

theorem Entries.eraseAll_cons {α : Type} (k : String) (ks : List String)
    (entries : List (String × α)) : eraseAll (k :: ks) entries = eraseAll ks (erase k entries) := by
  rw [eraseAll, eraseAll, erase, List.filter_filter]
  refine List.filter_congr fun e _ => ?_
  simp [Bool.and_comm]

namespace Element

variable {nodes : Arena} {tree : Element} {trees : List Element}

theorem Stored.erase {id : ElementId} (h : tree.Stored nodes) (hid : id ∉ tree.ids) :
    tree.Stored (Entries.erase id nodes) := by
  intro x hx
  have hne : id ≠ x.id := by
    rintro rfl
    exact hid (mem_ids_of_mem_preorder hx)
  rw [Entries.find?_erase, if_neg hne]
  exact h x hx

/-- Trees that are stored and have no id in common are taken out in the order in which they are listed. -/
theorem takesOut (hstored : ∀ tree ∈ trees, tree.Stored nodes)
    (hnodup : (trees.flatMap Element.ids).Nodup) :
    Arena.TakesOut nodes (trees.map Element.id) (trees.flatMap Element.ids)
      (Entries.eraseAll (trees.flatMap Element.ids) nodes) := by
  -- the next tree is broken up into its root and its children, which drops one id off the list of all ids
  generalize hall : trees.flatMap Element.ids = all at *
  induction all generalizing trees nodes with
  | nil =>
      cases trees with
      | nil =>
          have hnone : Entries.eraseAll [] nodes = nodes := by simp [Entries.eraseAll]
          rw [hnone]
          exact .done nodes
      | cons tree rest =>
          rcases tree with ⟨id, content⟩
          rw [List.flatMap_cons, ids_mk] at hall
          cases hall
  | cons first all ih =>
      cases trees with
      | nil => cases hall
      | cons tree rest =>
          rcases tree with ⟨id, content⟩
          rw [List.flatMap_cons, ids_mk, List.cons_append, List.cons.injEq, ← List.flatMap_append]
            at hall
          obtain ⟨rfl, hbelow⟩ := hall
          obtain ⟨hfirst, hnodup⟩ := List.nodup_cons.1 hnodup
          obtain ⟨htree, hrest⟩ := List.forall_mem_cons.1 hstored
          obtain ⟨⟨node, hnode, hcontent⟩, hchildren⟩ := stored_mk.1 htree
          have hlater : ∀ tree ∈ content.children ++ rest, tree.Stored (Entries.erase id nodes) := by
            intro tree htree
            refine Stored.erase ?_ fun hid => hfirst (hbelow ▸ List.mem_flatMap.2 ⟨tree, htree, hid⟩)
            exact (List.mem_append.1 htree).elim (hchildren tree) (hrest tree)
          have hgone := ih hlater hbelow hnodup
          rw [List.map_append, ← Content.children_map, hcontent] at hgone
          rw [Entries.eraseAll_cons, List.map_cons]
          exact .node hnode hgone

end Element

namespace Document

variable {doc next : Document} {edit : Edit} {record : Applied} {node : Node} {revision : Revision}

/-- The record of an edit accounts for the step from `doc` to `next`. -/
structure Accounts (doc : Document) (edit : Edit) (record : Applied) (next : Document) : Prop where
  /-- No id went twice. -/
  nodup : record.detached.Nodup
  /-- The ids that went are those of the trees that the change takes from under the target, one tree after
  the other, each parents first. -/
  lists : ∃ x ∈ doc.snapshot.preorder, x.id = edit.target ∧
    record.detached = (x.content.leaving edit.change).flatMap Element.ids
  /-- They are those that taking out node after node goes through, and that leaves all other nodes. -/
  takesOut : ∃ node, Entries.find? edit.target doc.nodes = some node ∧
    Arena.TakesOut doc.nodes (node.content.leaving edit.change) record.detached
      (Entries.eraseAll record.detached doc.nodes)
  /-- Only a change that removes or overwrites children takes anything out. -/
  quiet : edit.kind.detaches = false → record.detached = []
  /-- What is attached afterwards. -/
  contains_iff : ∀ id, next.contains id = true ↔
    (doc.contains id = true ∧ id ∉ record.detached) ∨ id ∈ edit.news
  /-- Every other node keeps its parent and its content, so also its list of children. -/
  frame : ∀ id, id ≠ edit.target → id ∉ record.detached → id ∉ edit.news →
    Entries.find? id next.nodes = Entries.find? id doc.nodes
  root : next.root = doc.root

/-- An edit that carries out a plan is accounted for. -/
theorem Acted.accounts (h : doc.Acted edit node revision) (hdoc : doc.Sound)
    (hregular : edit.change.Regular) (hdetached : record.detached =
      revision.removed.flatMap fun child => (doc.subtree child).ids) :
    doc.Accounts edit record (doc.revised edit revision) := by
  have g := h.grafts hdoc hregular
  obtain ⟨x, hx, hid, -, hkeyed, hstored, parent, hnode⟩ :=
    hdoc.exists_target (hdoc.mem_ids_snapshot.2 (contains_iff.2 ⟨node, h.found⟩))
  cases h.found.symm.trans hnode
  have hremoved : revision.removed = (x.content.leaving edit.change).map Element.id :=
    (h.removed_eq hdoc).trans (Content.leaving_map Element.id x.content edit.change)
  have hleaving : ∀ tree ∈ x.content.leaving edit.change, tree.Stored doc.nodes :=
    fun tree htree => hstored.children tree (Content.leaving_subset _ _ htree)
  have hlists : record.detached = (x.content.leaving edit.change).flatMap Element.ids := by
    rw [hdetached, hremoved, hdoc.flatMap_ids_subtree hleaving]
  have hnodup : record.detached.Nodup := by
    rw [hdetached]
    exact h.nodup_detached hdoc hregular
  refine ⟨hnodup, ⟨x, hx, hid, hlists⟩, ⟨_, hnode, ?_⟩, fun hkind => ?_, fun id => ?_,
    fun id hne hstays hnot => ?_, rfl⟩
  · rw [← h.removed_eq hdoc, hremoved, hlists]
    exact Element.takesOut hleaving (hlists ▸ hnodup)
  · rw [hlists, Content.leaving_eq_nil x.content hkind]
    rfl
  · rw [h.contains_revised_iff hdoc hregular, or_comm, hdetached, g.mem_detached]
    rfl
  · rw [Edit.news, ← h.added_eq hdoc] at hnot
    rw [hdetached] at hstays
    rw [revised, find?_commit_of_not_added hnot, if_neg hstays, if_neg (Ne.symm hne)]

/-- The record of an edit lists each id that went once, tree after tree and parents first. What is attached
afterwards is what was attached before without these ids and with those that the edit brings along, and all
other nodes but the target are as they were. -/
theorem Reachable.accounts_applyEdit (hdoc : doc.Reachable) (hregular : edit.change.Regular)
    (h : doc.applyEdit edit = .ok (some record, next)) : doc.Accounts edit record next := by
  rcases cases_applyEdit h with ⟨-, hnone, -⟩ | ⟨node, revision, hacted, hrecord, rfl⟩
  · cases hnone
  · cases hrecord
    exact hacted.accounts hdoc.sound hregular rfl

/-- The row of the sheet goes, though another one comes under its id. -/
theorem accounts_replaceRow : ∃ record next,
    sheet.applyEdit replaceRow = .ok (some record, next) ∧ record.detached = ["row"] ∧
      replaceRow.news = ["row", "done"] ∧ sheet.Accounts replaceRow record next :=
  ⟨_, _, rfl, rfl, rfl, Reachable.accounts_applyEdit reachable_sheet
    (by decide : replaceRow.change.Legal).regular rfl⟩

end Document
end CoEdit
