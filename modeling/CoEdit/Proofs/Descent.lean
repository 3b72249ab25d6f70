import CoEdit.Proofs.Grid

/-!
# Reconciling stays within the legal edits

Reconciling goes by indices alone and never asks whether two operations could have been made to one
document. Still, whatever indices they name, operations built from legal edits leave operations of the same
shape, made of legal edits of the same elements and families, and so however often they are reconciled
(`Operation.Derived.transform_remains`). In particular a reorder that comes out is a permutation, and neither
carrying it out nor taking it back looks up an item that is not there.
-/
namespace CoEdit

namespace Reorder

/-- Nothing is looked up that is not there: a list of the right length has an item at every index that the
order lists, and the inverse has, at every such index, the place where the order lists it. -/
structure InBounds (order : List Nat) : Prop where
  items : ∀ items : List ElementId, items.length = order.length →
    (permute order items).map some = order.map (items[·]?)
  places : ∀ k i : Nat, order[k]? = some i → (inverse order)[i]? = some k

theorem inBounds {order : List Nat} (h : isPermutation order = true) : InBounds order where
  items _ hlength := map_some_permute fun _ hk => hlength ▸ lt_of_mem h hk
  places _ _ hk := (getElem?_inverse_iff h).2 hk

end Reorder

/-! ## Families -/

theorem Reconciled.keeps_of_lift {α β : Type} {f : α → β} {p q : β → Prop} (answer : Reconciled α)
    (hp : ∀ a, p (f a)) (hq : ∀ a, q (f a)) : (answer.lift f).Keeps p q := by
  have hall : answer.Keeps (fun _ => True) fun _ => True := by
    intro first second _
    cases first <;> cases second <;> exact ⟨trivial, trivial⟩
  exact hall.lift (fun a _ => hp a) fun a _ => hq a

/-- What a rule leaves of a change is of its family. -/
theorem Change.keeps_family (c d : Change) :
    (c.transform d).Keeps (fun left => left.family = c.family) fun left => left.family = d.family := by
  by_cases hfamily : c.family = d.family
  · cases c with
    | array c =>
        cases d with
        | array d => exact (c.transform d).keeps_of_lift (f := Change.array) (fun _ => rfl) fun _ => rfl
        | _ => cases hfamily
    | string c =>
        cases d with
        | string d => exact (c.transform d).keeps_of_lift (f := Change.string) (fun _ => rfl) fun _ => rfl
        | _ => cases hfamily
    | object c =>
        cases d with
        | object d => exact (c.transform d).keeps_of_lift (f := Change.object) (fun _ => rfl) fun _ => rfl
        | _ => cases hfamily
    | number c =>
        cases d with
        | number d => exact (c.transform d).keeps_of_lift (f := Change.number) (fun _ => rfl) fun _ => rfl
        | _ => cases hfamily
    | booleanSet a =>
        cases d with
        | booleanSet b => exact Reconciled.keeps_firstWins rfl
        | _ => cases hfamily
    | dateSet m =>
        cases d with
        | dateSet n => exact Reconciled.keeps_firstWins rfl
        | _ => cases hfamily
  · rw [transform_of_family_ne hfamily]
    exact Reconciled.keeps_error _

/-! ## Edits -/

namespace Edit

/-- What reconciling may leave of an edit: an edit of the same element by a change of the same family, legal
if the edit was, and the very same edit if that was inert. -/
structure Remains (edit left : Edit) : Prop where
  target : left.target = edit.target
  family : left.change.family = edit.change.family
  untouched : edit.inert = true → left = edit
  legal : edit.change.Legal → left.change.Legal

theorem Remains.refl (edit : Edit) : edit.Remains edit := ⟨rfl, rfl, fun _ => rfl, id⟩

theorem Remains.trans {a b c : Edit} (h₁ : a.Remains b) (h₂ : b.Remains c) : a.Remains c where
  target := h₂.target.trans h₁.target
  family := h₂.family.trans h₁.family
  untouched hinert := by
    have hb := h₁.untouched hinert
    rw [h₂.untouched (hb ▸ hinert), hb]
  legal h := h₂.legal (h₁.legal h)

variable {s c s' c' : Edit} {cs cs' : List Edit}

theorem family_after {edit : Edit} {outcome : Outcome Change}
    (h : outcome.All fun left => left.family = edit.change.family) :
    (edit.after outcome).change.family = edit.change.family := by
  cases outcome with
  | becomes change => exact h
  | dropped => rfl

theorem remains_of_transform (hs : s.change.Legal) (hc : c.change.Legal)
    (h : s.transform c = .ok (s', c')) : s.Remains s' ∧ c.Remains c' := by
  have hrebased := rebased_of_transform hs.lawful hc.lawful h
  rcases cases_transform h with ⟨-, rfl, rfl⟩ | ⟨⟨hactive, hactive', -⟩, first, second, hrule, rfl, rfl⟩
  · exact ⟨.refl _, .refl _⟩
  · have hfamily := Change.keeps_family s.change c.change first second hrule
    have hnot {edit left : Edit} (hedit : edit.inert = false) (hinert : edit.inert = true) :
        left = edit := by
      rw [hedit] at hinert
      cases hinert
    exact ⟨⟨hrebased.1.target, family_after hfamily.1, hnot hactive, hrebased.1.change.legal⟩,
      ⟨hrebased.2.target, family_after hfamily.2, hnot hactive', hrebased.2.change.legal⟩⟩

theorem remains_of_transformAll (hs : s.change.Legal) (hcs : ∀ c ∈ cs, c.change.Legal)
    (h : s.transformAll cs = .ok (s', cs')) : s.Remains s' ∧ List.Forall₂ Remains cs cs' := by
  induction cs generalizing s cs' with
  | nil =>
      cases h
      exact ⟨.refl _, .nil⟩
  | cons c rest ih =>
      rw [List.forall_mem_cons] at hcs
      obtain ⟨mid, c', rest', hcell, hrest, rfl⟩ := transformAll_cons_iff.1 h
      obtain ⟨hmid, hc'⟩ := remains_of_transform hs hcs.1 hcell
      obtain ⟨hlast, hrest'⟩ := ih (hmid.legal hs) hcs.2 hrest
      exact ⟨hmid.trans hlast, .cons hc' hrest'⟩

end Edit

/-! ## Lists of edits -/

abbrev RemainsAll := List.Forall₂ Edit.Remains

namespace RemainsAll

variable {es left last : List Edit}

theorem refl (es : List Edit) : RemainsAll es es :=
  List.forall₂_same.2 fun edit _ => .refl edit

theorem trans (h₁ : RemainsAll es left) (h₂ : RemainsAll left last) : RemainsAll es last :=
  Element.forall₂_trans (r := Edit.Remains) (fun _ _ _ => .trans) h₁ h₂

theorem legal (h : RemainsAll es left) (hes : ∀ edit ∈ es, edit.change.Legal) :
    ∀ edit ∈ left, edit.change.Legal := by
  induction h with
  | nil => exact hes
  | cons hhead _ ih =>
      rw [List.forall_mem_cons] at hes ⊢
      exact ⟨hhead.legal hes.1, ih hes.2⟩

end RemainsAll

theorem remainsAll_of_transformLists {ss ss' cs cs' : List Edit} (hss : ∀ s ∈ ss, s.change.Legal)
    (hcs : ∀ c ∈ cs, c.change.Legal) (h : transformLists ss cs = .ok (ss', cs')) :
    RemainsAll ss ss' ∧ RemainsAll cs cs' := by
  induction ss generalizing cs ss' with
  | nil =>
      cases h
      exact ⟨.nil, .refl _⟩
  | cons s rest ih =>
      rw [List.forall_mem_cons] at hss
      obtain ⟨s', mid, rest', hrow, hrest, rfl⟩ := transformLists_cons_iff.1 h
      obtain ⟨hs', hmid⟩ := Edit.remains_of_transformAll hss.1 hcs hrow
      obtain ⟨hrest', hlast⟩ := ih hss.2 (RemainsAll.legal hmid hcs) hrest
      exact ⟨.cons hs' hrest', RemainsAll.trans hmid hlast⟩

/-! ## Operations -/

namespace Operation

/-- The operations that come about by reconciling: those built from legal edits, and what reconciling leaves
of two that have come about. -/
inductive Derived : Operation → Prop
  | built {operation : Operation} (legal : ∀ edit ∈ operation.edits, edit.change.Legal) :
      Derived operation
  | first {s c s' c' : Operation} (hs : Derived s) (hc : Derived c)
      (reconciled : s.transform c = .ok (s', c')) : Derived s'
  | second {s c s' c' : Operation} (hs : Derived s) (hc : Derived c)
      (reconciled : s.transform c = .ok (s', c')) : Derived c'

/-- What reconciling may leave of an operation: as many edits in the same shape, each of which remains of the
one in its place and can be made anew, and reorders that look up nothing that is not there. -/
structure Remains (operation left : Operation) : Prop where
  shape : operation.SameShape left
  parts : RemainsAll operation.edits left.edits
  made : ∀ edit ∈ left.edits, Edit.make edit.target edit.change = .ok (edit.withInert false)
  inBounds : ∀ edit ∈ left.edits, ∀ order, edit.change = .array (.reorder order) →
    Reorder.InBounds order

variable {s c s' c' operation left : Operation}

theorem remains_of_legal (hshape : operation.SameShape left)
    (hparts : RemainsAll operation.edits left.edits)
    (hlegal : ∀ edit ∈ left.edits, edit.change.Legal) : operation.Remains left where
  shape := hshape
  parts := hparts
  made edit hedit := Edit.make_of_legal (hlegal edit hedit)
  inBounds edit hedit order horder := by
    have hlawful := (hlegal edit hedit).lawful
    rw [horder] at hlawful
    exact Reorder.inBounds hlawful

theorem Derived.legal (h : operation.Derived) : ∀ edit ∈ operation.edits, edit.change.Legal := by
  induction h with
  | built legal => exact legal
  | first _ _ reconciled ihs ihc =>
      exact RemainsAll.legal
        (remainsAll_of_transformLists ihs ihc (transform_eq_ok_iff.1 reconciled).2.2).1 ihs
  | second _ _ reconciled ihs ihc =>
      exact RemainsAll.legal
        (remainsAll_of_transformLists ihs ihc (transform_eq_ok_iff.1 reconciled).2.2).2 ihc

/-- However often operations built from legal edits were reconciled, and whatever indices they name, once
more leaves operations of the same shape: each edit has its target and its family, is left as it is if it was
inert, and can be made anew. -/
theorem Derived.transform_remains (hs : s.Derived) (hc : c.Derived)
    (h : s.transform c = .ok (s', c')) : s.Remains s' ∧ c.Remains c' := by
  obtain ⟨hshape, hshape', hlists⟩ := transform_eq_ok_iff.1 h
  obtain ⟨hparts, hparts'⟩ := remainsAll_of_transformLists hs.legal hc.legal hlists
  exact ⟨remains_of_legal hshape hparts (RemainsAll.legal hparts hs.legal),
    remains_of_legal hshape' hparts' (RemainsAll.legal hparts' hc.legal)⟩

def rotate : Operation :=
  .compound [⟨"list", .array (.reorder [2, 0, 1]), false⟩, ⟨"list", .array (.remove 0), true⟩]

def extend : Operation :=
  .discrete ⟨"list", .array (.insert 3 (.mk "item" (.string ""))), false⟩

def takeSecond : Operation :=
  .discrete ⟨"list", .array (.remove 1), false⟩

theorem transform_remains_rotate : ∃ grown extended shrunk taken : Operation,
    rotate.transform extend = .ok (grown, extended) ∧
      grown.transform takeSecond = .ok (shrunk, taken) ∧ grown.Remains shrunk ∧
      takeSecond.Remains taken ∧
      shrunk.edits = [⟨"list", .array (.reorder [1, 0, 2]), false⟩, ⟨"list", .array (.remove 0), true⟩] := by
  have hrotate : rotate.Derived := .built (by decide +kernel)
  have hextend : extend.Derived := .built (by decide +kernel)
  have htake : takeSecond.Derived := .built (by decide +kernel)
  obtain ⟨hshrunk, htaken⟩ := Derived.transform_remains (.first hrotate hextend rfl) htake rfl
  exact ⟨_, _, _, _, rfl, rfl, hshrunk, htaken, rfl⟩

end Operation
end CoEdit
