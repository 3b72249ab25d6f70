import CoEdit.Proofs.Document.Stored

/-!
# Documents are trees

Whatever edits and operations were tried on a document, taken or refused, its nodes form one tree under
its root (`Reachable.treeShaped`). Parents and children name each other, and going up from any element
leads to the root in fewer steps than there are nodes. The bounds on reading a tree out and on climbing
to the root are therefore never reached: more steps than there are nodes lead to the same answers.
-/
namespace CoEdit

namespace Arena

/-- The parent of an attached element. -/
def parent? (nodes : Arena) (id : ElementId) : Option ElementId :=
  (Entries.find? id nodes).bind Node.parent

/-- The element to which the given number of steps upwards lead. -/
def ascend? (nodes : Arena) : Nat → ElementId → Option ElementId
  | 0, id => some id
  | steps + 1, id => (parent? nodes id).bind (ascend? nodes steps)

theorem exists_stepTo? {id : ElementId} {content : Content ElementId}
    (h : id ∈ content.children) : ∃ step, stepTo? id content = some step := by
  cases content with
  | array items =>
      have hsome : (items.findIdx? (· == id)).isSome = true :=
        List.findIdx?_isSome.trans (List.any_eq_true.2 ⟨id, h, beq_self_eq_true id⟩)
      obtain ⟨index, hindex⟩ := Option.isSome_iff_exists.1 hsome
      exact ⟨.index index, by rw [stepTo?, hindex, Option.map_some]⟩
  | object props =>
      obtain ⟨p, hp, rfl⟩ := List.mem_map.1 h
      have hsome : (props.find? fun e => e.2 == p.2).isSome = true :=
        List.find?_isSome.2 ⟨p, hp, beq_self_eq_true p.2⟩
      obtain ⟨e, he⟩ := Option.isSome_iff_exists.1 hsome
      exact ⟨.key e.1, by rw [stepTo?, Entries.keyOf?, he, Option.map_some, Option.map_some]⟩
  | _ => cases h

/-- Enough steps to pass all ancestors lead from an element to the root, always along the same path. -/
theorem Lineage.exists_climb? {nodes : Arena} {id : ElementId} {ancestors : List ElementId}
    (h : Lineage nodes id ancestors) : ∃ path : Path, ∀ fuel, ancestors.length < fuel → ∀ below,
      climb? nodes fuel id below = some (path ++ below) := by
  induction h with
  | root found =>
      refine ⟨[], fun fuel hfuel below => ?_⟩
      obtain ⟨fuel, rfl⟩ := Nat.exists_eq_add_one_of_ne_zero (Nat.ne_of_gt hfuel)
      rw [climb?, found]
      rfl
  | child found above listed rest ih =>
      obtain ⟨path, hpath⟩ := ih
      obtain ⟨step, hstep⟩ := exists_stepTo? listed
      refine ⟨path ++ [step], fun fuel hfuel below => ?_⟩
      obtain ⟨fuel, rfl⟩ := Nat.exists_eq_add_one_of_ne_zero (Nat.ne_zero_of_lt hfuel)
      have hrest := hpath fuel (Nat.lt_of_succ_lt_succ hfuel) (step :: below)
      rw [List.append_assoc, List.singleton_append, ← hrest, climb?, found]
      simp only [Option.bind_eq_bind, Option.bind_some, above, hstep]

end Arena

namespace Document
open Arena

variable {doc : Document} {id : ElementId}

/-- The nodes form one tree, and every walk through it ends. -/
structure TreeShaped (doc : Document) : Prop where
  /-- The root is attached and has no parent. -/
  root : ∃ content, Entries.find? doc.root doc.nodes = some ⟨none, content⟩
  /-- Every other element has an attached parent, which lists it exactly once. -/
  parent : ∀ {id node}, Entries.find? id doc.nodes = some node → id ≠ doc.root →
    ∃ parent above, node.parent = some parent ∧ Entries.find? parent doc.nodes = some above ∧
      above.content.children.count id = 1
  /-- Every listed child is attached and has as its parent the element that lists it. -/
  listed : ∀ {id node child}, Entries.find? id doc.nodes = some node →
    child ∈ node.content.children →
      ∃ below, Entries.find? child doc.nodes = some below ∧ below.parent = some id
  /-- Going up from an attached element leads to the root. -/
  ascends : ∀ {id}, doc.contains id = true →
    ∃ steps < doc.nodes.length, ascend? doc.nodes steps id = some doc.root
  /-- The tree read out from the root has just the attached elements. -/
  reached : ∀ {id}, id ∈ doc.snapshot.ids ↔ doc.contains id = true
  /-- Reading out the tree under an attached element ends, however far it may go. -/
  reads : ∀ {id}, doc.contains id = true → ∃ tree, doc.value? id = some tree ∧
    ∀ fuel ≥ doc.nodes.length, read? doc.nodes fuel id = some tree
  /-- Climbing from an attached element ends, however far it may go. -/
  climbs : ∀ {id}, doc.contains id = true → ∃ path, doc.pathOf? id = some path ∧
    ∀ fuel ≥ doc.nodes.length, climb? doc.nodes fuel id [] = some path

theorem Sound.ascend?_eq (h : doc.Sound) {ancestors : List ElementId}
    (hlineage : Lineage doc.nodes id ancestors) :
    ascend? doc.nodes ancestors.length id = some doc.root := by
  induction hlineage with
  | root found => exact congrArg some (h.orphan found)
  | child found above listed rest ih =>
      rw [List.length_cons, ascend?, parent?, found]
      exact ih

/-- With fuel for all nodes the tree under an attached element is read out, and more fuel makes no
difference. -/
theorem Sound.exists_value? (h : doc.Sound) (hid : doc.contains id = true) :
    ∃ tree, doc.value? id = some tree ∧
      ∀ fuel ≥ doc.nodes.length, read? doc.nodes fuel id = some tree := by
  obtain ⟨node, hnode⟩ := contains_iff.1 hid
  obtain ⟨ancestors, hlineage⟩ := h.reached hnode
  obtain ⟨tree, htree, hholds⟩ := h.exists_read? hlineage (Nat.le_add_right _ _)
  refine ⟨tree, htree, fun fuel hfuel => ?_⟩
  obtain ⟨other, hother, hholds'⟩ :=
    h.exists_read? hlineage (hfuel.trans (Nat.le_add_right fuel ancestors.length))
  rw [hother, hholds'.stored.eq hholds.stored (hholds'.id_eq.trans hholds.id_eq.symm)]

theorem Sound.exists_pathOf? (h : doc.Sound) (hid : doc.contains id = true) :
    ∃ path, doc.pathOf? id = some path ∧
      ∀ fuel ≥ doc.nodes.length, climb? doc.nodes fuel id [] = some path := by
  obtain ⟨node, hnode⟩ := contains_iff.1 hid
  obtain ⟨ancestors, hlineage⟩ := h.reached hnode
  obtain ⟨path, hpath⟩ := hlineage.exists_climb?
  have hclimb : ∀ fuel ≥ doc.nodes.length, climb? doc.nodes fuel id [] = some path := by
    intro fuel hfuel
    rw [hpath fuel (hlineage.length_lt.trans_le hfuel), List.append_nil]
  exact ⟨path, hclimb _ le_rfl, hclimb⟩

/-- The nodes of every document that comes about form one tree. -/
theorem Reachable.treeShaped (hdoc : doc.Reachable) : doc.TreeShaped := by
  have h := hdoc.sound
  refine ⟨h.root, fun {id node} hnode hne => ?_, fun hnode hchild => ?_, fun {id} hid => ?_,
    h.mem_ids_snapshot, h.exists_value?, h.exists_pathOf?⟩
  · obtain ⟨ancestors, hlineage⟩ := h.reached hnode
    cases hlineage with
    | root found => exact absurd (h.orphan found) hne
    | child found above listed rest =>
        rw [hnode] at found
        cases found
        exact ⟨_, _, rfl, above, List.count_eq_one_of_mem (h.children above) listed⟩
  · obtain ⟨content, hfound⟩ := h.listed hnode hchild
    exact ⟨_, hfound, rfl⟩
  · obtain ⟨node, hnode⟩ := contains_iff.1 hid
    obtain ⟨ancestors, hlineage⟩ := h.reached hnode
    exact ⟨ancestors.length, hlineage.length_lt, h.ascend?_eq hlineage⟩

def sheet : Document where
  root := "sheet"
  nodes := [
    ("sheet", ⟨none, .object [("title", "title"), ("total", "total"), ("rows", "rows")]⟩),
    ("title", ⟨some "sheet", .string "Ab"⟩),
    ("total", ⟨some "sheet", .number 0.1⟩),
    ("rows", ⟨some "sheet", .array ["row"]⟩),
    ("row", ⟨some "rows", .boolean true⟩)]

theorem reachable_sheet : sheet.Reachable := by
  have hmade : ofElement (.mk "sheet" (.object [
      ("title", .mk "title" (.string "Ab")),
      ("total", .mk "total" (.number 0.1)),
      ("rows", .mk "rows" (.array [.mk "row" (.boolean true)]))])) = .ok sheet := rfl
  exact .ofElement (by decide) hmade

/-- Removes the title, adds to the total and then removes a row that is not there. -/
def overreach : Operation :=
  .compound [
    ⟨"sheet", .object (.remove "title"), false⟩,
    ⟨"total", .number (.delta 0.2), false⟩,
    ⟨"rows", .array (.remove 7), false⟩]

theorem regular_overreach : ∀ edit ∈ overreach.edits, edit.change.Regular := fun edit hedit =>
  ((by decide +kernel : ∀ edit ∈ overreach.edits, edit.change.Legal) edit hedit).regular

theorem treeShaped_overreach : (sheet.apply overreach).2.TreeShaped :=
  (Reachable.apply reachable_sheet regular_overreach).treeShaped

end Document
end CoEdit
