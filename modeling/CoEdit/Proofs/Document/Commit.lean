import CoEdit.Document.Apply
import CoEdit.Proofs.Document.Sound

/-!
# Commits keep documents sound

A commit takes some children of one element out with all that lies under them and hangs new trees
there. What stays keeps its lineage, because an element below something that was taken out is taken out
itself, and the new trees continue the lineage of the element that was edited (`sound_commit`).
-/
namespace CoEdit

theorem firstClash?_eq_none_iff (taken : ElementId → Bool) (ids : List ElementId) :
    firstClash? taken ids = none ↔ ids.Nodup ∧ ∀ id ∈ ids, taken id = false := by
  induction ids generalizing taken with
  | nil => simp [firstClash?]
  | cons id rest ih =>
      cases hid : taken id with
      | true => simp [firstClash?, hid]
      | false =>
          simp only [firstClash?, hid, Bool.false_eq_true, if_false, ih, Bool.or_eq_false_iff,
            beq_eq_false_iff_ne, List.nodup_cons, List.forall_mem_cons, true_and]
          constructor
          · rintro ⟨hnodup, hrest⟩
            exact ⟨⟨fun hmem => (hrest id hmem).2 rfl, hnodup⟩, fun other h => (hrest other h).1⟩
          · rintro ⟨⟨hnot, hnodup⟩, hrest⟩
            refine ⟨hnodup, fun other h => ⟨hrest other h, ?_⟩⟩
            rintro rfl
            exact hnot h

theorem Document.checkFresh_eq_ok_iff (doc : Document) (reusable : List ElementId)
    (values : List Element) : doc.checkFresh reusable values = .ok () ↔
      (values.flatMap Element.ids).Nodup ∧
        ∀ id ∈ values.flatMap Element.ids, doc.contains id = true → id ∈ reusable := by
  have htaken (id : ElementId) : (doc.contains id && !reusable.contains id) = false ↔
      (doc.contains id = true → id ∈ reusable) := by
    cases doc.contains id <;> simp
  have hsplit : doc.checkFresh reusable values = .ok () ↔
      (values.findSome? fun value => firstClash?
        (fun id => doc.contains id && !reusable.contains id) value.ids) = none ∧
      firstClash? (fun _ => false) (values.flatMap Element.ids) = none := by
    unfold checkFresh
    dsimp only
    generalize List.findSome? _ values = alone
    generalize firstClash? _ _ = together
    cases alone <;> cases together <;> simp
  rw [hsplit, List.findSome?_eq_none_iff, firstClash?_eq_none_iff]
  simp only [firstClash?_eq_none_iff, htaken]
  constructor
  · rintro ⟨halone, hnodup, -⟩
    refine ⟨hnodup, fun id hid => ?_⟩
    obtain ⟨value, hvalue, hid⟩ := List.mem_flatMap.1 hid
    exact (halone value hvalue).2 id hid
  · rintro ⟨hnodup, hall⟩
    refine ⟨fun value hvalue => ⟨?_, fun id hid => ?_⟩, hnodup, fun _ _ => trivial⟩
    · exact (List.nodup_flatMap.1 hnodup).1 value hvalue
    · exact hall id (List.mem_flatMap.2 ⟨value, hvalue, hid⟩)

namespace Element

/-! ## The nodes of a tree -/

theorem placedItems_eq (parent : ElementId) (items : List Element) :
    placedItems parent items = items.flatMap (placed (some parent)) := by
  induction items with
  | nil => simp [placedItems]
  | cons item rest ih => simp [placedItems, ih]

theorem placedProps_eq (parent : ElementId) (props : List (String × Element)) :
    placedProps parent props = (Entries.values props).flatMap (placed (some parent)) := by
  induction props with
  | nil => simp [placedProps, Entries.values]
  | cons p rest ih =>
      rcases p with ⟨name, item⟩
      simpa [placedProps, Entries.values] using ih

theorem placed_mk (parent : Option ElementId) (id : ElementId) (content : Content Element) :
    placed parent (.mk id content) =
      (id, ⟨parent, content.map Element.id⟩) :: content.children.flatMap (placed (some id)) := by
  rw [placed]
  congr 1
  cases content <;> simp [placedContent, Content.children, placedItems_eq, placedProps_eq]

theorem ids_mk (id : ElementId) (content : Content Element) :
    ids (.mk id content) = id :: content.children.flatMap ids := by
  rw [ids, preorder_mk, preorderContent_eq, List.map_cons, List.map_flatMap]
  rfl

theorem keys_placed (parent : Option ElementId) (tree : Element) :
    Entries.keys (placed parent tree) = tree.ids := by
  induction tree using Element.induction generalizing parent with
  | mk id content ih =>
      rw [placed_mk, ids_mk, Entries.keys, List.map_cons, List.map_flatMap]
      congr 1
      exact List.flatMap_congr fun child hchild => ih child hchild (some id)

theorem map_id_sublist (trees : List Element) :
    (trees.map Element.id).Sublist (trees.flatMap ids) := by
  induction trees with
  | nil => exact .slnil
  | cons tree rest ih =>
      rcases tree with ⟨id, content⟩
      rw [List.map_cons, List.flatMap_cons, ids_mk]
      exact (ih.trans (List.sublist_append_right _ _)).cons_cons id

theorem nodup_children {tree x : Element} (h : tree.ids.Nodup) (hx : x ∈ tree.preorder) :
    (x.content.children.map Element.id).Nodup := by
  induction tree using Element.induction with
  | mk id content ih =>
      rw [ids_mk, List.nodup_cons] at h
      rcases mem_preorder_mk.1 hx with rfl | ⟨child, hchild, hx⟩
      · exact h.2.sublist (map_id_sublist _)
      · exact ih child hchild ((List.nodup_flatMap.1 h.2).1 child hchild) hx

variable {parent : Option ElementId} {tree : Element} {id : ElementId} {node : Node}

theorem mem_placed_root (parent : Option ElementId) (tree : Element) :
    (tree.id, ⟨parent, tree.content.map Element.id⟩) ∈ placed parent tree := by
  rcases tree with ⟨id, content⟩
  rw [placed_mk]
  exact List.mem_cons_self

theorem exists_mem_placed {tree x : Element} (hx : x ∈ tree.preorder)
    (parent : Option ElementId) :
    ∃ above, (x.id, ⟨above, x.content.map Element.id⟩) ∈ placed parent tree := by
  induction tree using Element.induction generalizing parent with
  | mk id content ih =>
      rw [placed_mk]
      rcases mem_preorder_mk.1 hx with rfl | ⟨child, hchild, hx⟩
      · exact ⟨parent, List.mem_cons_self⟩
      · obtain ⟨above, hmem⟩ := ih child hchild hx (some id)
        exact ⟨above, List.mem_cons_of_mem _ (List.mem_flatMap.2 ⟨child, hchild, hmem⟩)⟩

theorem exists_of_mem_placed (h : (id, node) ∈ placed parent tree) :
    ∃ x ∈ tree.preorder, x.id = id ∧ x.content.map Element.id = node.content := by
  induction tree using Element.induction generalizing parent with
  | mk root content ih =>
      rw [placed_mk, List.mem_cons, List.mem_flatMap] at h
      rcases h with h | ⟨child, hchild, h⟩
      · cases h
        exact ⟨_, mem_preorder_mk.2 (.inl rfl), rfl, rfl⟩
      · obtain ⟨x, hx, hid, hcontent⟩ := ih child hchild h
        exact ⟨x, mem_preorder_mk.2 (.inr ⟨child, hchild, hx⟩), hid, hcontent⟩

theorem parent_of_mem_placed {above : ElementId} (h : (id, node) ∈ placed (some above) tree) :
    node.parent ≠ none := by
  induction tree using Element.induction generalizing above with
  | mk root content ih =>
      rw [placed_mk, List.mem_cons, List.mem_flatMap] at h
      rcases h with h | ⟨child, hchild, h⟩
      · cases h
        simp
      · exact ih child hchild h

theorem mem_placed_child (h : (id, node) ∈ placed parent tree) {child : ElementId}
    (hchild : child ∈ node.content.children) :
    ∃ content, (child, ⟨some id, content⟩) ∈ placed parent tree := by
  induction tree using Element.induction generalizing parent with
  | mk root content ih =>
      rw [placed_mk, List.mem_cons, List.mem_flatMap] at h
      rw [placed_mk]
      rcases h with h | ⟨x, hx, h⟩
      · cases h
        rw [Content.children_map] at hchild
        obtain ⟨x, hx, rfl⟩ := List.mem_map.1 hchild
        exact ⟨_, List.mem_cons_of_mem _ (List.mem_flatMap.2 ⟨x, hx, mem_placed_root _ x⟩)⟩
      · obtain ⟨below, hmem⟩ := ih x hx h
        exact ⟨below, List.mem_cons_of_mem _ (List.mem_flatMap.2 ⟨x, hx, hmem⟩)⟩

theorem lineage_placed {nodes : Arena} {above : ElementId} {top : Node}
    {ancestors : List ElementId} (hplaced : ∀ id node, (id, node) ∈ placed (some above) tree →
      Entries.find? id nodes = some node)
    (htop : Entries.find? above nodes = some top) (hlisted : tree.id ∈ top.content.children)
    (habove : Arena.Lineage nodes above ancestors) (hid : id ∈ tree.ids) :
    ∃ lineage, Arena.Lineage nodes id lineage := by
  induction tree using Element.induction generalizing above top ancestors with
  | mk root content ih =>
      have hroot := hplaced _ _ (mem_placed_root (some above) _)
      have hlineage : Arena.Lineage nodes root (above :: ancestors) :=
        .child hroot htop hlisted habove
      rcases mem_ids_mk.1 hid with rfl | ⟨child, hchild, hid⟩
      · exact ⟨_, hlineage⟩
      · refine ih child hchild (fun other node hmem => hplaced other node ?_) hroot ?_ hlineage hid
        · rw [placed_mk]
          exact List.mem_cons_of_mem _ (List.mem_flatMap.2 ⟨child, hchild, hmem⟩)
        · change child.id ∈ (content.map Element.id).children
          rw [Content.children_map]
          exact List.mem_map_of_mem hchild

end Element

namespace Document
open Arena

/-! ## Finding nodes after a commit -/

variable {doc : Document} {target id : ElementId} {content : Content ElementId}
  {removed detached : List ElementId} {added : List Element} {node : Node}

theorem keys_flatMap_placed (target : ElementId) (added : List Element) :
    Entries.keys (added.flatMap (Element.placed (some target))) = added.flatMap Element.ids := by
  rw [Entries.keys, List.map_flatMap]
  exact List.flatMap_congr fun tree _ => Element.keys_placed _ tree

theorem find?_commit_added (hnodup : (added.flatMap Element.ids).Nodup)
    (h : (id, node) ∈ added.flatMap (Element.placed (some target))) :
    Entries.find? id (doc.commit target content detached added).nodes = some node := by
  have hdistinct : Entries.Distinct (added.flatMap (Element.placed (some target))).reverse := by
    rw [← keys_flatMap_placed target] at hnodup
    rw [Entries.Distinct, Entries.keys, List.map_reverse, List.nodup_reverse]
    exact hnodup
  rw [find?_commit, Entries.find?_of_mem hdistinct (List.mem_reverse.2 h), Option.some_or]

theorem find?_added_of_not_mem (h : id ∉ added.flatMap Element.ids) :
    Entries.find? id (added.flatMap (Element.placed (some target))).reverse = none := by
  rw [← keys_flatMap_placed target] at h
  rw [Entries.find?_eq_none_iff, Entries.keys, List.map_reverse, List.mem_reverse]
  exact h

theorem find?_commit_of_not_added (h : id ∉ added.flatMap Element.ids) :
    Entries.find? id (doc.commit target content detached added).nodes =
      if id ∈ detached then none
      else if target = id then
        (Entries.find? id doc.nodes).map fun node => { node with content }
      else Entries.find? id doc.nodes := by
  rw [find?_commit, find?_added_of_not_mem h, Option.none_or]

theorem mem_added_ids (h : (id, node) ∈ added.flatMap (Element.placed (some target))) :
    id ∈ added.flatMap Element.ids := by
  rw [← keys_flatMap_placed target]
  exact List.mem_map.2 ⟨_, h, rfl⟩

/-- What a commit takes out is whole, what it hangs in is new, and the children of the target change
by just that. -/
structure Grafts (doc : Document) (target : ElementId) (node : Node) (content : Content ElementId)
    (removed detached : List ElementId) (added : List Element) : Prop where
  found : Entries.find? target doc.nodes = some node
  taken : ∀ child ∈ removed, child ∈ node.content.children
  mem_detached : ∀ id, id ∈ detached ↔ ∃ child ∈ removed, Under doc.nodes child id
  nodup : (added.flatMap Element.ids).Nodup
  fresh : ∀ id ∈ added.flatMap Element.ids, doc.contains id = true → id ∈ detached
  trees : ∀ tree ∈ added, tree.Keyed
  mem_children : ∀ child, child ∈ content.children ↔
    child ∈ node.content.children ∧ child ∉ removed ∨ child ∈ added.map Element.id
  children : content.children.Nodup
  keyed : content.Keyed

namespace Grafts

variable (h : doc.Sound) (g : doc.Grafts target node content removed detached added)
include h g

omit h in
theorem not_added {other : Node} (hfound : Entries.find? id doc.nodes = some other)
    (hstays : id ∉ detached) : id ∉ added.flatMap Element.ids :=
  fun hid => hstays (g.fresh id hid (contains_iff.2 ⟨other, hfound⟩))

theorem target_stays : target ∉ detached := by
  intro hmem
  obtain ⟨child, hchild, ancestors, hlineage, htarget⟩ := (g.mem_detached target).1 hmem
  exact h.child_not_mem hlineage g.found (g.taken child hchild) htarget

theorem target_not_added : target ∉ added.flatMap Element.ids :=
  g.not_added g.found (g.target_stays h)

theorem root_stays : doc.root ∉ detached := by
  intro hmem
  obtain ⟨child, hchild, ancestors, hlineage, hroot⟩ := (g.mem_detached _).1 hmem
  obtain ⟨below, hfound⟩ := h.listed g.found (g.taken child hchild)
  obtain ⟨top, hdocroot⟩ := h.root
  have hnil := hlineage.unique (.root hdocroot)
  subst hnil
  rw [List.mem_singleton.1 hroot, hdocroot] at hfound
  cases hfound

theorem parent_stays {parent : ElementId} {above : Node}
    (habove : Entries.find? parent doc.nodes = some above) (hid : id ∈ above.content.children)
    (hstays : id ∉ detached) :
    parent ∉ detached ∧ (parent = target → id ∉ removed) := by
  constructor
  · intro hmem
    obtain ⟨child, hchild, hunder⟩ := (g.mem_detached parent).1 hmem
    obtain ⟨ancestors, hlineage, htop⟩ := hunder
    exact hstays ((g.mem_detached id).2 ⟨child, hchild, _, h.lineage_child hlineage habove hid,
      List.mem_cons_of_mem _ htop⟩)
  · rintro - hmem
    obtain ⟨below, hfound⟩ := h.listed habove hid
    exact hstays ((g.mem_detached id).2 ⟨id, hmem, h.under_self hfound⟩)

/-- A child that stays listed by its parent stays attached. -/
theorem child_stays {parent : ElementId} {above : Node}
    (habove : Entries.find? parent doc.nodes = some above) (hid : id ∈ above.content.children)
    (hstays : parent ∉ detached) (hkept : parent = target → id ∉ removed) : id ∉ detached := by
  intro hmem
  obtain ⟨child, hchild, ancestors, hlineage, htop⟩ := (g.mem_detached id).1 hmem
  obtain ⟨below, hfound⟩ := h.listed habove hid
  rcases List.mem_cons.1 htop with rfl | htop
  · obtain ⟨_, hfound'⟩ := h.listed g.found (g.taken child hchild)
    rw [hfound] at hfound'
    cases hfound'
    exact hkept rfl hchild
  · cases hlineage with
    | root => cases htop
    | child found above' listed rest =>
        rw [hfound] at found
        cases found
        exact hstays ((g.mem_detached parent).2 ⟨child, hchild, _, rest, htop⟩)

omit h in
theorem find?_of_stays {parent : Option ElementId} {before : Content ElementId}
    (hfound : Entries.find? id doc.nodes = some ⟨parent, before⟩) (hstays : id ∉ detached) :
    ∃ after, Entries.find? id (doc.commit target content detached added).nodes =
      some ⟨parent, after⟩ ∧ (target ≠ id → after = before) := by
  rw [find?_commit_of_not_added (g.not_added hfound hstays), if_neg hstays]
  split_ifs with ht
  · exact ⟨content, by rw [hfound]; rfl, fun hne => absurd ht hne⟩
  · exact ⟨before, hfound, fun _ => rfl⟩

theorem find?_target : Entries.find? target (doc.commit target content detached added).nodes =
    some { node with content } := by
  rw [find?_commit_of_not_added (g.target_not_added h), if_neg (g.target_stays h), if_pos rfl,
    g.found]
  rfl

/-- What is attached after a commit is new, is the target, or was there before as it is. -/
theorem cases_find? {after : Node}
    (hafter : Entries.find? id (doc.commit target content detached added).nodes = some after) :
    (id, after) ∈ added.flatMap (Element.placed (some target)) ∨
      (id = target ∧ after = { node with content }) ∨
      (id ≠ target ∧ id ∉ detached ∧ Entries.find? id doc.nodes = some after) := by
  by_cases hnew : id ∈ added.flatMap Element.ids
  · rw [← keys_flatMap_placed target] at hnew
    obtain ⟨⟨_, other⟩, hmem, rfl⟩ := List.mem_map.1 hnew
    rw [find?_commit_added g.nodup hmem] at hafter
    cases hafter
    exact .inl hmem
  · by_cases ht : target = id
    · subst ht
      rw [g.find?_target h] at hafter
      cases hafter
      exact .inr (.inl ⟨rfl, rfl⟩)
    · rw [find?_commit_of_not_added hnew, if_neg ht] at hafter
      split_ifs at hafter with hd
      exact .inr (.inr ⟨Ne.symm ht, hd, hafter⟩)

theorem lineage_stays {ancestors : List ElementId} (hlineage : Lineage doc.nodes id ancestors)
    (hstays : id ∉ detached) :
    Lineage (doc.commit target content detached added).nodes id ancestors := by
  induction hlineage with
  | root found =>
      obtain ⟨after, hafter, -⟩ := g.find?_of_stays found hstays
      exact .root hafter
  | child found above listed rest ih =>
      rename_i parent _ top _
      obtain ⟨after, hafter, -⟩ := g.find?_of_stays found hstays
      obtain ⟨hparent, hkept⟩ := g.parent_stays h above listed hstays
      rcases top with ⟨grand, before⟩
      obtain ⟨below, hbelow, hsame⟩ := g.find?_of_stays above hparent
      refine .child hafter hbelow ?_ (ih hparent)
      by_cases ht : target = parent
      · subst ht
        rw [g.find?_target h] at hbelow
        have hcontent : content = below := congrArg Node.content (Option.some.inj hbelow)
        have hnode : node = ⟨grand, before⟩ := Option.some.inj (g.found.symm.trans above)
        rw [← hcontent]
        refine (g.mem_children _).2 (.inl ⟨?_, hkept rfl⟩)
        rw [hnode]
        exact listed
      · rw [hsame ht]
        exact listed

theorem sound : (doc.commit target content detached added).Sound where
  root := by
    obtain ⟨top, hroot⟩ := h.root
    obtain ⟨after, hafter, -⟩ := g.find?_of_stays hroot (g.root_stays h)
    exact ⟨after, hafter⟩
  orphan := by
    intro id below hafter
    rcases g.cases_find? h hafter with hnew | ⟨rfl, hsame⟩ | ⟨-, -, hbefore⟩
    · obtain ⟨tree, -, hmem⟩ := List.mem_flatMap.1 hnew
      exact absurd rfl (Element.parent_of_mem_placed hmem)
    · have hfound := g.found
      have hparent : none = node.parent := congrArg Node.parent hsame
      obtain ⟨parent, before⟩ := node
      subst hparent
      exact h.orphan hfound
    · exact h.orphan hbefore
  listed := by
    intro id after child hafter hchild
    rcases g.cases_find? h hafter with hnew | ⟨rfl, rfl⟩ | ⟨hne, hstays, hbefore⟩
    · obtain ⟨tree, htree, hmem⟩ := List.mem_flatMap.1 hnew
      obtain ⟨below, hbelow⟩ := Element.mem_placed_child hmem hchild
      exact ⟨below, find?_commit_added g.nodup (List.mem_flatMap.2 ⟨tree, htree, hbelow⟩)⟩
    · rcases (g.mem_children child).1 hchild with ⟨hold, hkept⟩ | hnew
      · obtain ⟨before, hfound⟩ := h.listed g.found hold
        obtain ⟨below, hbelow, -⟩ := g.find?_of_stays hfound
          (g.child_stays h g.found hold (g.target_stays h) fun _ => hkept)
        exact ⟨below, hbelow⟩
      · obtain ⟨tree, htree, rfl⟩ := List.mem_map.1 hnew
        exact ⟨_, find?_commit_added g.nodup
          (List.mem_flatMap.2 ⟨tree, htree, Element.mem_placed_root _ tree⟩)⟩
    · obtain ⟨before, hfound⟩ := h.listed hbefore hchild
      obtain ⟨below, hbelow, -⟩ := g.find?_of_stays hfound
        (g.child_stays h hbefore hchild hstays fun heq => absurd heq hne)
      exact ⟨below, hbelow⟩
  children := by
    intro id after hafter
    rcases g.cases_find? h hafter with hnew | ⟨-, rfl⟩ | ⟨-, -, hbefore⟩
    · obtain ⟨tree, htree, hmem⟩ := List.mem_flatMap.1 hnew
      obtain ⟨x, hx, -, hcontent⟩ := Element.exists_of_mem_placed hmem
      rw [← hcontent, Content.children_map]
      exact Element.nodup_children ((List.nodup_flatMap.1 g.nodup).1 tree htree) hx
    · exact g.children
    · exact h.children hbefore
  keyed := by
    intro id after hafter
    rcases g.cases_find? h hafter with hnew | ⟨-, rfl⟩ | ⟨-, -, hbefore⟩
    · obtain ⟨tree, htree, hmem⟩ := List.mem_flatMap.1 hnew
      obtain ⟨x, hx, -, hcontent⟩ := Element.exists_of_mem_placed hmem
      rw [← hcontent]
      exact Content.keyed_map _ (g.trees tree htree x hx)
    · exact g.keyed
    · exact h.keyed hbefore
  reached := by
    intro id after hafter
    rcases g.cases_find? h hafter with hnew | ⟨rfl, rfl⟩ | ⟨-, hstays, hbefore⟩
    · obtain ⟨tree, htree, hmem⟩ := List.mem_flatMap.1 hnew
      obtain ⟨ancestors, hlineage⟩ := h.reached g.found
      have hid : id ∈ tree.ids := by
        rw [← Element.keys_placed (some target)]
        exact List.mem_map.2 ⟨_, hmem, rfl⟩
      exact Element.lineage_placed
        (fun other placed hplaced => find?_commit_added g.nodup
          (List.mem_flatMap.2 ⟨tree, htree, hplaced⟩))
        (g.find?_target h) ((g.mem_children _).2 (.inr (List.mem_map_of_mem htree)))
        (g.lineage_stays h hlineage (g.target_stays h)) hid
    · obtain ⟨ancestors, hlineage⟩ := h.reached g.found
      exact ⟨ancestors, g.lineage_stays h hlineage (g.target_stays h)⟩
    · obtain ⟨ancestors, hlineage⟩ := h.reached hbefore
      exact ⟨ancestors, g.lineage_stays h hlineage hstays⟩

end Grafts
end Document
end CoEdit
