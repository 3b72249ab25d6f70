import CoEdit.Proofs.Document.Stored

/-!
# Editing trees

A tree is edited by editing the content of one element and leaving everything else as it is
(`Element.edit?`); no arena is involved. Everything that is done to a tree element by element is a case
of `Element.rewrite`.
-/
namespace CoEdit

namespace Element

mutual

/-- The tree with the content of every element replaced, from the leaves up. -/
def rewrite (f : ElementId → Content Element → Content Element) : Element → Element
  | .mk id content => .mk id (f id (rewriteContent f content))

def rewriteContent (f : ElementId → Content Element → Content Element) :
    Content Element → Content Element
  | .array items => .array (rewriteItems f items)
  | .object props => .object (rewriteProps f props)
  | .null => .null
  | .string text => .string text
  | .number value => .number value
  | .boolean value => .boolean value
  | .date millis => .date millis

def rewriteItems (f : ElementId → Content Element → Content Element) : List Element → List Element
  | [] => []
  | item :: rest => rewrite f item :: rewriteItems f rest

def rewriteProps (f : ElementId → Content Element → Content Element) :
    List (String × Element) → List (String × Element)
  | [] => []
  | (name, item) :: rest => (name, rewrite f item) :: rewriteProps f rest

end

/-- The tree in which the element `target` has another content. -/
def withContent (target : ElementId) (content : Content Element) (tree : Element) : Element :=
  tree.rewrite fun id old => if id = target then content else old

/-- The tree after an edit of the element at which it is aimed, if the change fits that element and no id
occurs twice in the outcome. -/
def edit? (tree : Element) (edit : Edit) : Option Element := do
  let element ← tree.preorder.find? fun element => element.id == edit.target
  let content ← element.content.edit? (fun value => value) edit.change
  let edited := tree.withContent edit.target content
  if edited.ids.Nodup then some edited else none

/-! ## Rewriting -/

theorem rewriteItems_eq (f : ElementId → Content Element → Content Element)
    (items : List Element) : rewriteItems f items = items.map (rewrite f) := by
  induction items with
  | nil => simp [rewriteItems]
  | cons item rest ih => simp [rewriteItems, ih]

theorem rewriteProps_eq (f : ElementId → Content Element → Content Element)
    (props : List (String × Element)) :
    rewriteProps f props = props.map fun p => (p.1, rewrite f p.2) := by
  induction props with
  | nil => simp [rewriteProps]
  | cons p rest ih =>
      rcases p with ⟨name, item⟩
      simp [rewriteProps, ih]

theorem rewrite_mk (f : ElementId → Content Element → Content Element) (id : ElementId)
    (content : Content Element) :
    rewrite f (.mk id content) = .mk id (f id (content.map (rewrite f))) := by
  rw [rewrite]
  congr 2
  cases content <;> simp [rewriteContent, Content.map, rewriteItems_eq, rewriteProps_eq]

@[simp] theorem id_rewrite (f : ElementId → Content Element → Content Element) (tree : Element) :
    (tree.rewrite f).id = tree.id := by
  rcases tree with ⟨id, content⟩
  rw [rewrite_mk]
  rfl

variable {target : ElementId} {content : Content Element} {tree : Element}

@[simp] theorem id_withContent (target : ElementId) (content : Content Element) (tree : Element) :
    (tree.withContent target content).id = tree.id :=
  id_rewrite _ tree

theorem withContent_self (target : ElementId) (content old : Content Element) :
    (mk target old).withContent target content = .mk target content := by
  rw [withContent, rewrite_mk, if_pos rfl]

theorem withContent_of_ne {id : ElementId} (h : id ≠ target) (old : Content Element) :
    (mk id old).withContent target content =
      .mk id (old.map (withContent target content)) := by
  rw [withContent, rewrite_mk, if_neg h]
  rfl

theorem withContent_of_not_mem (h : target ∉ tree.ids) : tree.withContent target content = tree := by
  induction tree using Element.induction with
  | mk id old ih =>
      rw [mem_ids_mk, not_or, not_exists] at h
      rw [withContent_of_ne (Ne.symm h.1)]
      congr 1
      conv_rhs => rw [← old.map_id]
      exact Content.map_congr fun child hchild => ih child hchild fun hmem => h.2 child ⟨hchild, hmem⟩

/-! ## Editing -/

theorem perm_ids_around (id : ElementId) {child : Element} {front back : List Element}
    {outer inner : List ElementId} (h : child.ids.Perm (outer ++ inner)) :
    (id :: (front ++ child :: back).flatMap ids).Perm
      (id :: (front.flatMap ids ++ back.flatMap ids ++ outer) ++ inner) := by
  rw [List.perm_iff_count]
  intro a
  have hcount := h.count_eq a
  simp only [List.flatMap_append, List.flatMap_cons, List.count_cons, List.count_append,
    List.cons_append] at hcount ⊢
  omega

/-- The ids of a tree are those below an element of it and others, which another content of the element
leaves as they are. -/
theorem exists_outer {tree x : Element} (hnodup : tree.ids.Nodup) (hx : x ∈ tree.preorder) :
    ∃ outer, tree.ids.Perm (outer ++ x.content.children.flatMap ids) ∧
      ∀ content, (tree.withContent x.id content).ids.Perm
        (outer ++ content.children.flatMap ids) := by
  induction tree using Element.induction with
  | mk id old ih =>
      rw [ids_mk, List.nodup_cons] at hnodup
      rcases mem_preorder_mk.1 hx with rfl | ⟨child, hchild, hx⟩
      · refine ⟨[id], .of_eq (ids_mk id old), fun content => .of_eq ?_⟩
        exact (congrArg ids (withContent_self id content old)).trans (ids_mk id content)
      · have hmem := mem_ids_of_mem_preorder hx
        have hne : id ≠ x.id := by
          rintro rfl
          exact hnodup.1 (List.mem_flatMap.2 ⟨child, hchild, hmem⟩)
        obtain ⟨hown, hapart⟩ := List.nodup_flatMap.1 hnodup.2
        obtain ⟨outer, hbefore, hafter⟩ := ih child hchild (hown child hchild) hx
        obtain ⟨front, back, hsplit⟩ := List.append_of_mem hchild
        -- the siblings do not contain the element, so they are left as they are
        have hsiblings (content : Content Element) :
            old.children.map (withContent x.id content) =
              front ++ child.withContent x.id content :: back := by
          rw [hsplit, List.pairwise_append, List.pairwise_cons] at hapart
          rw [hsplit, List.map_append, List.map_cons,
            List.map_congr_left fun y hy => withContent_of_not_mem fun h =>
              hapart.2.2 y hy child List.mem_cons_self h hmem,
            List.map_congr_left fun y hy => withContent_of_not_mem fun h =>
              hapart.2.1.1 y hy hmem h, List.map_id', List.map_id']
        refine ⟨id :: (front.flatMap ids ++ back.flatMap ids ++ outer), ?_, fun content => ?_⟩
        · rw [ids_mk, hsplit]
          exact perm_ids_around id hbefore
        · rw [withContent_of_ne hne, ids_mk, Content.children_map, hsiblings]
          exact perm_ids_around id (hafter content)

theorem find?_preorder {tree : Element} {target : ElementId} (h : target ∈ tree.ids) :
    ∃ x ∈ tree.preorder, x.id = target ∧
      tree.preorder.find? (fun element => element.id == target) = some x := by
  obtain ⟨y, hy, rfl⟩ := List.mem_map.1 h
  have hsome : (tree.preorder.find? fun element => element.id == y.id).isSome = true :=
    List.find?_isSome.2 ⟨y, hy, beq_self_eq_true y.id⟩
  obtain ⟨x, hx⟩ := Option.isSome_iff_exists.1 hsome
  exact ⟨x, List.mem_of_find?_eq_some hx, by simpa using List.find?_some hx, hx⟩

theorem edit?_eq_some_iff {tree edited : Element} {edit : Edit} :
    tree.edit? edit = some edited ↔ ∃ x after,
      tree.preorder.find? (fun element => element.id == edit.target) = some x ∧
        x.content.edit? (fun value => value) edit.change = some after ∧
        (tree.withContent edit.target after).ids.Nodup ∧
        tree.withContent edit.target after = edited := by
  simp only [edit?, Option.bind_eq_bind, Option.bind_eq_some_iff, Option.ite_none_right_eq_some,
    Option.some.injEq, exists_and_left]

end Element

end CoEdit
