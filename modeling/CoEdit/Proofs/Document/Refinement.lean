import CoEdit.Proofs.Document.Build
import CoEdit.Proofs.Document.Shape
import CoEdit.Proofs.Document.TreeEdit
import CoEdit.Proofs.Record.Operation

/-!
# Applying an edit edits the tree

A document keeps an arena, but an edit of it is an edit of the tree that it holds
(`Reachable.snapshot_applyEdit`). An edit is taken exactly when its change fits the target and the tree
edited at that place repeats no id; the document then holds the edited tree, property by property in its
order. Otherwise the edit is passed over or refused, and the document stays what it is.
-/
namespace CoEdit

theorem nodup_exchange_iff {α : Type} {all gone rest new : List α} (hall : all.Perm (gone ++ rest))
    (hnodup : all.Nodup) :
    (rest ++ new).Nodup ↔ new.Nodup ∧ ∀ a ∈ new, a ∈ all → a ∈ gone := by
  have hsplit := List.nodup_append.1 (hall.nodup_iff.1 hnodup)
  rw [List.nodup_append]
  constructor
  · rintro ⟨-, hnew, hapart⟩
    refine ⟨hnew, fun a ha hmem => ?_⟩
    exact (List.mem_append.1 (hall.mem_iff.1 hmem)).resolve_right fun hrest =>
      hapart a hrest a ha rfl
  · rintro ⟨hnew, hgone⟩
    refine ⟨hsplit.2.1, hnew, fun a hrest b hb heq => ?_⟩
    subst heq
    have hmem := hall.mem_iff.2 (List.mem_append_right gone hrest)
    exact hsplit.2.2 a (hgone a hb hmem) a hrest rfl

namespace Document
open Arena

variable {doc : Document} {edit : Edit} {node : Node} {revision : Revision}

/-! ## Plans on trees -/

theorem exists_edit?_of_revise {before : Content Element} (hkeyed : before.Keyed)
    {id : ElementId} {change : Change}
    (h : doc.revise id (before.map Element.id) change = .ok revision) :
    ∃ after, before.edit? (fun value => value) change = some after ∧
      revision.content = after.map Element.id ∧
      revision.removed = (before.leaving change).map Element.id ∧
      revision.added = change.payload := by
  obtain ⟨hcontent, hremoved, hadded⟩ := plan_of_revise (Content.keyed_map Element.id hkeyed) h
  rw [before.edit?_map_id] at hcontent
  obtain ⟨after, hafter, hsame⟩ := Option.map_eq_some_iff.1 hcontent
  exact ⟨after, hafter, hsame.symm, hremoved.trans (Content.leaving_map _ _ _), hadded⟩

theorem exists_revise_of_edit? (doc : Document) {before after : Content Element}
    (hkeyed : before.Keyed) (id : ElementId) {change : Change}
    (h : before.edit? (fun value => value) change = some after) :
    ∃ revision, doc.revise id (before.map Element.id) change = .ok revision := by
  have hids := before.edit?_map_id change
  rw [h, Option.map_some] at hids
  exact doc.exists_plan id (Content.keyed_map Element.id hkeyed) hids

/-! ## The edited element -/

theorem Sound.exists_target (hdoc : doc.Sound) (hmem : edit.target ∈ doc.snapshot.ids) :
    ∃ x ∈ doc.snapshot.preorder, x.id = edit.target ∧
      doc.snapshot.preorder.find? (fun element => element.id == edit.target) = some x ∧
      x.content.Keyed ∧ x.Stored doc.nodes ∧ ∃ parent,
        Entries.find? edit.target doc.nodes = some ⟨parent, x.content.map Element.id⟩ := by
  obtain ⟨x, hx, hid, hfind⟩ := Element.find?_preorder hmem
  have hstored := hdoc.holds_snapshot.stored.below hx
  obtain ⟨⟨parent, content⟩, hnode, hcontent⟩ := hdoc.holds_snapshot.stored x hx
  refine ⟨x, hx, hid, hfind, hdoc.holds_snapshot.keyed x hx, hstored, parent, ?_⟩
  rw [← hid, hnode, hcontent]

theorem Sound.flatMap_ids_subtree (hdoc : doc.Sound) {trees : List Element}
    (hstored : ∀ tree ∈ trees, tree.Stored doc.nodes) :
    ((trees.map Element.id).flatMap fun child => (doc.subtree child).ids) =
      trees.flatMap Element.ids := by
  rw [List.flatMap_map]
  exact List.flatMap_congr fun tree htree =>
    congrArg Element.ids (hdoc.subtree_eq (hstored tree htree))

/-- An edit may bring its trees along exactly if the edited tree repeats no id. -/
theorem Sound.checkFresh_iff_nodup (hdoc : doc.Sound) {x : Element}
    (hx : x ∈ doc.snapshot.preorder) {change : Change} {after : Content Element}
    (hlawful : change.Lawful) (h : x.content.edit? (fun value => value) change = some after) :
    doc.checkFresh ((x.content.leaving change).flatMap Element.ids) change.payload = .ok () ↔
      (doc.snapshot.withContent x.id after).ids.Nodup := by
  obtain ⟨outer, hbefore, hafter⟩ := Element.exists_outer hdoc.nodup_snapshot hx
  obtain ⟨kept, hchildren, hchildren'⟩ :=
    Content.exists_kept (hdoc.holds_snapshot.keyed x hx) hlawful h
  rw [List.map_id'] at hchildren'
  have hall : doc.snapshot.ids.Perm ((x.content.leaving change).flatMap Element.ids ++
      (outer ++ kept.flatMap Element.ids)) := by
    refine hbefore.trans (((hchildren.flatMap_right _).append_left outer).trans ?_)
    rw [List.flatMap_append, ← List.append_assoc, ← List.append_assoc]
    exact List.perm_append_comm.append_right _
  have hedited : (doc.snapshot.withContent x.id after).ids.Perm
      (outer ++ kept.flatMap Element.ids ++ change.payload.flatMap Element.ids) := by
    refine (hafter after).trans (((hchildren'.flatMap_right _).append_left outer).trans ?_)
    rw [List.flatMap_append, List.append_assoc]
  rw [hedited.nodup_iff, nodup_exchange_iff hall hdoc.nodup_snapshot, checkFresh_eq_ok_iff]
  simp only [hdoc.mem_ids_snapshot]

/-! ## The tree after a commit -/

theorem Grafts.stored_withContent {target : ElementId} {content : Content Element}
    {removed detached : List ElementId} {added : List Element} (hdoc : doc.Sound)
    (g : doc.Grafts target node (content.map Element.id) removed detached added) {tree : Element}
    (htree : tree.Stored doc.nodes) (hstays : tree.id ∉ detached)
    (hchildren : target ∈ tree.ids → ∀ child ∈ content.children, child.Stored
      (doc.commit target (content.map Element.id) detached added).nodes) :
    (tree.withContent target content).Stored
      (doc.commit target (content.map Element.id) detached added).nodes := by
  induction tree using Element.induction with
  | mk id old ih =>
      obtain ⟨⟨⟨parent, before⟩, hnode, hcontent⟩, hbelow⟩ := Element.stored_mk.1 htree
      change old.map Element.id = before at hcontent
      by_cases ht : id = target
      · subst ht
        rw [Element.withContent_self, Element.stored_mk]
        exact ⟨⟨_, g.find?_target hdoc, rfl⟩,
          hchildren (Element.mem_ids_mk.2 (.inl rfl))⟩
      · obtain ⟨after, hafter, hsame⟩ := g.find?_of_stays hnode hstays
        have hids : (old.map (Element.withContent target content)).map Element.id = after := by
          rw [Content.map_map, hsame (Ne.symm ht)]
          exact (Content.map_congr fun child _ => Element.id_withContent _ _ child).trans hcontent
        rw [Element.withContent_of_ne ht, Element.stored_mk]
        refine ⟨⟨_, hafter, hids⟩, fun child hchild => ?_⟩
        rw [Content.children_map] at hchild
        obtain ⟨child, hold, rfl⟩ := List.mem_map.1 hchild
        have hlisted : child.id ∈ before.children := by
          rw [← hcontent, Content.children_map]
          exact List.mem_map_of_mem hold
        exact ih child hold (hbelow child hold)
          (g.child_stays hdoc hnode hlisted hstays fun heq => absurd heq ht)
          fun hmem => hchildren (Element.mem_ids_mk.2 (.inr ⟨child, hold, hmem⟩))

theorem Grafts.stored_added {target : ElementId} {content : Content ElementId}
    {removed detached : List ElementId} {added : List Element}
    (g : doc.Grafts target node content removed detached added) {tree : Element}
    (htree : tree ∈ added) :
    tree.Stored (doc.commit target content detached added).nodes := by
  intro x hx
  obtain ⟨above, hmem⟩ := Element.exists_mem_placed hx (some target)
  exact ⟨_, find?_commit_added g.nodup (List.mem_flatMap.2 ⟨tree, htree, hmem⟩), rfl⟩

theorem Grafts.stored_children {x : Element} {content : Content Element}
    {detached : List ElementId} {gone kept added : List Element} (hdoc : doc.Sound)
    (g : doc.Grafts x.id node (content.map Element.id) (gone.map Element.id) detached added)
    (hx : x.Stored doc.nodes) (hbefore : x.content.children.Perm (gone ++ kept))
    (hafter : content.children.Perm (kept ++ added)) : ∀ child ∈ content.children, child.Stored
      (doc.commit x.id (content.map Element.id) detached added).nodes := by
  obtain ⟨other, hother, hnode⟩ := hx x (Element.mem_preorder_self x)
  have hsame : node = other := Option.some.inj (g.found.symm.trans hother)
  subst hsame
  have hids : (gone.map Element.id ++ kept.map Element.id).Nodup := by
    rw [← List.map_append, ← (hbefore.map Element.id).nodup_iff, ← Content.children_map, hnode]
    exact hdoc.children g.found
  intro child hchild
  rcases List.mem_append.1 (hafter.mem_iff.1 hchild) with hkept | hnew
  · have hold := hbefore.mem_iff.2 (List.mem_append_right gone hkept)
    have hstored := hx.children child hold
    have hlisted : child.id ∈ node.content.children := by
      rw [← hnode, Content.children_map]
      exact List.mem_map_of_mem hold
    have hstays := g.child_stays hdoc g.found hlisted (g.target_stays hdoc) fun _ hgone =>
      (List.nodup_append.1 hids).2.2 _ hgone _ (List.mem_map_of_mem hkept) rfl
    -- nothing is edited below a child, for an element does not lie under its children
    have habove : x.id ∉ child.ids := by
      intro hmem
      obtain ⟨ancestors, hlineage, hbelow⟩ := (hdoc.mem_ids_iff hstored).1 hmem
      exact hdoc.child_not_mem hlineage g.found hlisted hbelow
    have hsubtree := g.stored_withContent hdoc hstored hstays fun hmem => absurd hmem habove
    rwa [Element.withContent_of_not_mem habove] at hsubtree
  · exact g.stored_added hnew

/-- A commit edits the tree. -/
theorem Grafts.snapshot_commit {x : Element} {content : Content Element}
    {detached : List ElementId} {gone kept added : List Element} (hdoc : doc.Sound)
    (g : doc.Grafts x.id node (content.map Element.id) (gone.map Element.id) detached added)
    (hx : x.Stored doc.nodes) (hbefore : x.content.children.Perm (gone ++ kept))
    (hafter : content.children.Perm (kept ++ added)) :
    (doc.commit x.id (content.map Element.id) detached added).snapshot =
      doc.snapshot.withContent x.id content := by
  have hroot : (doc.snapshot.withContent x.id content).id = doc.root :=
    (Element.id_withContent _ _ _).trans hdoc.holds_snapshot.id_eq
  have hstays : doc.snapshot.id ∉ detached := by
    rw [hdoc.holds_snapshot.id_eq]
    exact g.root_stays hdoc
  have hstored := g.stored_withContent hdoc hdoc.holds_snapshot.stored hstays fun _ =>
    g.stored_children hdoc hx hbefore hafter
  have hsubtree := (g.sound hdoc).subtree_eq hstored
  rwa [hroot] at hsubtree

/-! ## Edits -/

/-- What an edit makes of a document is what it makes of the tree. -/
theorem Acted.edit?_eq (h : doc.Acted edit node revision) (hdoc : doc.Sound)
    (hregular : edit.change.Regular) :
    doc.snapshot.edit? edit = some (doc.revised edit revision).snapshot := by
  obtain ⟨active, found, planned, fresh⟩ := id h
  have g := h.grafts hdoc hregular
  obtain ⟨x, hx, hid, hfind, hkeyed, hstored, parent, hnode⟩ :=
    hdoc.exists_target (hdoc.mem_ids_snapshot.2 (contains_iff.2 ⟨node, found⟩))
  cases found.symm.trans hnode
  obtain ⟨after, hafter, hcontent, hremoved, hadded⟩ := exists_edit?_of_revise hkeyed planned
  obtain ⟨kept, hbefore, hkept⟩ := Content.exists_kept hkeyed hregular.lawful hafter
  rw [List.map_id'] at hkept
  have hleaving : ∀ tree ∈ x.content.leaving edit.change, tree.Stored doc.nodes := fun tree htree =>
    hstored.children tree (hbefore.mem_iff.2 (List.mem_append_left kept htree))
  rw [hremoved, hadded, hdoc.flatMap_ids_subtree hleaving,
    hdoc.checkFresh_iff_nodup hx hregular.lawful hafter, hid] at fresh
  rw [hcontent, hremoved, hadded, ← hid] at g
  refine Element.edit?_eq_some_iff.2 ⟨x, after, hfind, hafter, fresh, ?_⟩
  rw [revised, hcontent, hremoved, hadded, ← hid]
  exact (g.snapshot_commit hdoc hstored hbefore hkept).symm

theorem Sound.exists_acted (hdoc : doc.Sound) (hregular : edit.change.Regular)
    (hactive : edit.inert = false) {tree : Element} (h : doc.snapshot.edit? edit = some tree) :
    ∃ node revision, doc.Acted edit node revision := by
  obtain ⟨y, after, hy, hafter, hnodup, -⟩ := Element.edit?_eq_some_iff.1 h
  have hmem : edit.target ∈ doc.snapshot.ids :=
    List.mem_map.2 ⟨y, List.mem_of_find?_eq_some hy, by simpa using List.find?_some hy⟩
  obtain ⟨x, hx, hid, hfind, hkeyed, hstored, parent, hnode⟩ := hdoc.exists_target hmem
  cases hy.symm.trans hfind
  obtain ⟨revision, planned⟩ := doc.exists_revise_of_edit? hkeyed edit.target hafter
  obtain ⟨after', hafter', -, hremoved, hadded⟩ := exists_edit?_of_revise hkeyed planned
  obtain ⟨kept, hbefore, -⟩ := Content.exists_kept hkeyed hregular.lawful hafter
  refine ⟨_, revision, hactive, hnode, planned, ?_⟩
  rw [hremoved, hadded, hdoc.flatMap_ids_subtree fun tree htree =>
    hstored.children tree (hbefore.mem_iff.2 (List.mem_append_left kept htree)),
    hdoc.checkFresh_iff_nodup hx hregular.lawful hafter, hid]
  exact hnodup

/-- Replaces the row of the sheet by another that keeps its id and has something below it. -/
def replaceRow : Edit :=
  ⟨"rows", .array (.replace 0 (.mk "row" (.object [("done", .mk "done" (.boolean false))]))), false⟩

end Document
end CoEdit
