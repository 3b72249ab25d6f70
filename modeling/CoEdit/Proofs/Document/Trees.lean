import CoEdit.Proofs.Confluence.Shadow
import CoEdit.Proofs.Document.Sound

/-!
# Trees and shadows

A shadow shows a tree if every element of the tree shows what the shadow says of it. Trees with one
root that are shown by one shadow agree (`agrees_of_shown`), and trees that agree have the same
elements (`same_of_agrees`). Both go content by content, for a content agrees with another if and only
if the two show the same and their children agree.
-/
namespace CoEdit

namespace Element

variable {shadow : Shadow}

/-- Every element of the tree shows what the shadow says of it. -/
def Shown (shadow : Shadow) (tree : Element) : Prop :=
  ∀ x ∈ tree.preorder, x.view = shadow x.id

theorem shown_mk {id : ElementId} {content : Content Element} :
    Shown shadow (.mk id content) ↔
      (content.map Element.id).view = shadow id ∧ ∀ child ∈ content.children, child.Shown shadow :=
  forall_preorder_mk

theorem forall₂_of_map_eq {α β : Type} {r : α → α → Prop} {f : α → β} {xs ys : List α}
    (h : xs.map f = ys.map f) (hr : ∀ x ∈ xs, ∀ y ∈ ys, f x = f y → r x y) :
    List.Forall₂ r xs ys := by
  induction xs generalizing ys with
  | nil =>
      cases ys with
      | nil => exact .nil
      | cons y ys => cases h
  | cons x xs ih =>
      cases ys with
      | nil => cases h
      | cons y ys =>
          obtain ⟨hxy, hrest⟩ := List.cons_eq_cons.1 h
          exact .cons (hr x List.mem_cons_self y List.mem_cons_self hxy)
            (ih hrest fun a ha b hb =>
              hr a (List.mem_cons_of_mem _ ha) b (List.mem_cons_of_mem _ hb))

theorem mem_children_of_find? {name : String} {child : Element}
    {props : List (String × Element)} (h : Entries.find? name props = some child) :
    child ∈ (Content.object props).children :=
  List.mem_map.2 ⟨(name, child), Entries.mem_of_find? h, rfl⟩

/-- Contents that show the same agree as soon as their children do, numbers that are none apart. -/
theorem agreesContent_of_view {content content' : Content Element} (hkeyed : content.Keyed)
    (hkeyed' : content'.Keyed)
    (hview : (content.map Element.id).view = (content'.map Element.id).view)
    (hnumber : (content.map Element.id).view ≠ .number .notANumber)
    (hchild : ∀ x ∈ content.children, ∀ y ∈ content'.children, x.id = y.id →
      agrees x y = true) : agreesContent content content' = true := by
  cases content with
  | array xs =>
      cases content' with
      | array ys =>
          rw [agreesContent, agreesItems_iff]
          exact forall₂_of_map_eq (View.array.inj hview) hchild
      | _ => cases hview
  | object ps =>
      cases content' with
      | object qs =>
          rw [agreesContent, agreesProps_iff_find? hkeyed hkeyed']
          intro name
          have hname := congrFun (View.object.inj hview) name
          rw [Entries.find?_map, Entries.find?_map] at hname
          cases hx : Entries.find? name ps with
          | none =>
              rw [hx, Option.map_none, eq_comm, Option.map_eq_none_iff] at hname
              rw [hname]
              exact .none
          | some x =>
              rw [hx, Option.map_some, eq_comm, Option.map_eq_some_iff] at hname
              obtain ⟨y, hy, hyx⟩ := hname
              rw [hy]
              exact .some (hchild x (mem_children_of_find? hx) y (mem_children_of_find? hy)
                hyx.symm)
      | _ => cases hview
  | number x =>
      cases content' with
      | number y =>
          rw [agreesContent]
          exact (Number.beq_iff_magnitude x y).2
            ⟨fun heq => hnumber (congrArg View.number heq), View.number.inj hview⟩
      | _ => cases hview
  | string s =>
      cases content' with
      | string t => simpa [agreesContent] using View.string.inj hview
      | _ => cases hview
  | boolean a =>
      cases content' with
      | boolean b => simpa [agreesContent] using View.boolean.inj hview
      | _ => cases hview
  | date m =>
      cases content' with
      | date n => simpa [agreesContent] using View.date.inj hview
      | _ => cases hview
  | null =>
      cases content' with
      | null => rw [agreesContent]
      | _ => cases hview

/-- Trees with one root that are shown by one shadow agree, numbers that are none apart. -/
theorem agrees_of_shown {tree other : Element} (hid : tree.id = other.id)
    (htree : tree.Shown shadow) (hother : other.Shown shadow) (hkeyed : tree.Keyed)
    (hkeyed' : other.Keyed) (hnumber : ∀ id, shadow id ≠ .number .notANumber) :
    agrees tree other = true := by
  induction tree using Element.induction generalizing other with
  | mk id content ih =>
      rcases other with ⟨id', content'⟩
      have hids : id = id' := hid
      subst hids
      obtain ⟨hview, hbelow⟩ := shown_mk.1 htree
      obtain ⟨hview', hbelow'⟩ := shown_mk.1 hother
      obtain ⟨hcontent, hchildren⟩ := keyed_mk.1 hkeyed
      obtain ⟨hcontent', hchildren'⟩ := keyed_mk.1 hkeyed'
      rw [agrees, beq_self_eq_true, Bool.true_and]
      refine agreesContent_of_view hcontent hcontent' (hview.trans hview'.symm)
        (hview ▸ hnumber id) fun x hx y hy hxy => ?_
      exact ih x hx hxy (hbelow x hx) (hbelow' y hy) (hchildren x hx) (hchildren' y hy)

theorem view_eq_of_agreesContent {content content' : Content Element} (hkeyed : content.Keyed)
    (hkeyed' : content'.Keyed) (h : agreesContent content content' = true) :
    (content.map Element.id).view = (content'.map Element.id).view ∧
      (content.map Element.id).view ≠ .number .notANumber := by
  cases content with
  | array xs =>
      cases content' with
      | array ys =>
          rw [agreesContent] at h
          exact ⟨congrArg View.array (map_id_eq_of_agreesItems h), fun heq => by cases heq⟩
      | _ => simp [agreesContent] at h
  | object ps =>
      cases content' with
      | object qs =>
          have hsame := ObjectChange.slots_eq_of_sameProps hkeyed hkeyed' h
          refine ⟨congrArg View.object ?_, fun heq => by cases heq⟩
          funext name
          rw [Entries.find?_map, Entries.find?_map]
          exact congrFun hsame name
      | _ => simp [agreesContent] at h
  | number x =>
      cases content' with
      | number y =>
          rw [agreesContent] at h
          obtain ⟨hnumber, hxy⟩ := (Number.beq_iff_magnitude x y).1 h
          exact ⟨congrArg View.number hxy, fun heq => hnumber (View.number.inj heq)⟩
      | _ => simp [agreesContent] at h
  | string s =>
      cases content' with
      | string t =>
          have hst : s = t := by simpa [agreesContent] using h
          exact ⟨congrArg View.string hst, fun heq => by cases heq⟩
      | _ => simp [agreesContent] at h
  | boolean a =>
      cases content' with
      | boolean b =>
          have hab : a = b := by simpa [agreesContent] using h
          exact ⟨congrArg View.boolean hab, fun heq => by cases heq⟩
      | _ => simp [agreesContent] at h
  | date m =>
      cases content' with
      | date n =>
          have hmn : m = n := by simpa [agreesContent] using h
          exact ⟨congrArg View.date hmn, fun heq => by cases heq⟩
      | _ => simp [agreesContent] at h
  | null =>
      cases content' with
      | null => exact ⟨rfl, fun heq => by cases heq⟩
      | _ => simp [agreesContent] at h

theorem children_of_agreesContent {content content' : Content Element} (hkeyed : content.Keyed)
    (hkeyed' : content'.Keyed) (h : agreesContent content content' = true) :
    (∀ x ∈ content.children, ∃ y ∈ content'.children, agrees x y = true) ∧
      ∀ y ∈ content'.children, ∃ x ∈ content.children, agrees x y = true := by
  cases content with
  | array xs =>
      cases content' with
      | array ys =>
          rw [agreesContent, agreesItems_iff] at h
          exact ⟨fun x hx => exists_of_mem_left h hx, fun y hy => exists_of_mem_right h hy⟩
      | _ => simp [agreesContent] at h
  | object ps =>
      cases content' with
      | object qs =>
          rw [agreesContent, agreesProps_iff_find? hkeyed hkeyed'] at h
          constructor
          · intro x hx
            obtain ⟨⟨name, x⟩, hmem, rfl⟩ := List.mem_map.1 hx
            have hname := h name
            rw [Entries.find?_of_mem hkeyed hmem] at hname
            cases hy : Entries.find? name qs with
            | none =>
                rw [hy] at hname
                cases hname
            | some y =>
                rw [hy] at hname
                cases hname with
                | some hxy => exact ⟨y, mem_children_of_find? hy, hxy⟩
          · intro y hy
            obtain ⟨⟨name, y⟩, hmem, rfl⟩ := List.mem_map.1 hy
            have hname := h name
            rw [Entries.find?_of_mem hkeyed' hmem] at hname
            cases hx : Entries.find? name ps with
            | none =>
                rw [hx] at hname
                cases hname
            | some x =>
                rw [hx] at hname
                cases hname with
                | some hxy => exact ⟨x, mem_children_of_find? hx, hxy⟩
      | _ => simp [agreesContent] at h
  | _ =>
      cases content' <;>
        first
        | simp [agreesContent] at h; done
        | simp [Content.children]

/-- Two elements are one as far as documents are compared, apart from what is below them. -/
def Same (x y : Element) : Prop :=
  x.id = y.id ∧ x.view = y.view ∧ x.view ≠ .number .notANumber

theorem same_of_agrees {tree other : Element} (h : agrees tree other = true)
    (hkeyed : tree.Keyed) (hkeyed' : other.Keyed) :
    (∀ x ∈ tree.preorder, ∃ y ∈ other.preorder, Same x y) ∧
      ∀ y ∈ other.preorder, ∃ x ∈ tree.preorder, Same x y := by
  induction tree using Element.induction generalizing other with
  | mk id content ih =>
      rcases other with ⟨id', content'⟩
      have hids := id_eq_of_agrees h
      rw [agrees, Bool.and_eq_true] at h
      obtain ⟨hcontent, hchildren⟩ := keyed_mk.1 hkeyed
      obtain ⟨hcontent', hchildren'⟩ := keyed_mk.1 hkeyed'
      have hroot : Same (.mk id content) (.mk id' content') :=
        ⟨hids, view_eq_of_agreesContent hcontent hcontent' h.2⟩
      obtain ⟨hleft, hright⟩ := children_of_agreesContent hcontent hcontent' h.2
      constructor
      · intro x hx
        rcases mem_preorder_mk.1 hx with rfl | ⟨child, hchild, hx⟩
        · exact ⟨_, mem_preorder_mk.2 (.inl rfl), hroot⟩
        · obtain ⟨child', hchild', hagrees⟩ := hleft child hchild
          obtain ⟨y, hy, hsame⟩ := (ih child hchild hagrees (hchildren child hchild)
            (hchildren' child' hchild')).1 x hx
          exact ⟨y, mem_preorder_mk.2 (.inr ⟨child', hchild', hy⟩), hsame⟩
      · intro y hy
        rcases mem_preorder_mk.1 hy with rfl | ⟨child', hchild', hy⟩
        · exact ⟨_, mem_preorder_mk.2 (.inl rfl), hroot⟩
        · obtain ⟨child, hchild, hagrees⟩ := hright child' hchild'
          obtain ⟨x, hx, hsame⟩ := (ih child hchild hagrees (hchildren child hchild)
            (hchildren' child' hchild')).2 y hy
          exact ⟨x, mem_preorder_mk.2 (.inr ⟨child, hchild, hx⟩), hsame⟩

end Element
end CoEdit
