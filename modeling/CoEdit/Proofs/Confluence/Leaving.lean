import CoEdit.Proofs.Document.ContentEdit

/-!
# Children that leave on either side

Two changes were made to one element at the same time, and each is adjusted to follow the other. The
children that leave are then the same in either order. A change that has nothing left to do would have
taken out nothing but what the other one takes out (`Change.covers_transform`). A child that a change takes
out, and that is still there after the other one, goes when the change follows (`Content.leaving_follow`);
this is a matter of counting, for both orders end with the same children.
-/
namespace CoEdit

/-! ## Changes that are dropped -/

namespace Reconciled

variable {α β : Type} {p q : Prop}

/-- Whenever the rule answers, `p` holds if nothing is left of the first side, `q` if nothing is left of the
second. -/
def Covers (p q : Prop) (answer : Reconciled α) : Prop :=
  ∀ first second, answer = .ok (first, second) →
    (first = .dropped → p) ∧ (second = .dropped → q)

theorem covers_error (e : TransformError) : Covers p q (.error e : Reconciled α) := by
  intro first second h
  cases h

theorem covers_both (first second : α) : (both first second).Covers p q := by
  intro _ _ h
  cases h
  exact ⟨nofun, nofun⟩

theorem covers_firstOnly (first : α) (hq : q) : (firstOnly first).Covers p q := by
  intro _ _ h
  cases h
  exact ⟨nofun, fun _ => hq⟩

theorem covers_secondOnly (second : α) (hp : p) : (secondOnly second).Covers p q := by
  intro _ _ h
  cases h
  exact ⟨fun _ => hp, nofun⟩

theorem covers_of (answer : Reconciled α) (hp : p) (hq : q) : answer.Covers p q :=
  fun _ _ _ => ⟨fun _ => hp, fun _ => hq⟩

theorem covers_firstWins {agree : Bool} (first : α) (hp : p) (hq : q) :
    (firstWins agree first).Covers p q := by
  cases agree with
  | false => exact covers_firstOnly first hq
  | true => exact covers_of _ hp hq

theorem Covers.swap {answer : Reconciled α} (h : answer.Covers p q) : answer.swap.Covers q p := by
  intro first second heq
  cases answer with
  | error e => cases heq
  | ok pair =>
      cases heq
      exact (h _ _ rfl).symm

theorem Covers.lift {f : α → β} {answer : Reconciled α} (h : answer.Covers p q) :
    (answer.lift f).Covers p q := by
  intro first second heq
  have hmap (outcome : Outcome α) : outcome.map f = .dropped → outcome = .dropped := by
    cases outcome with
    | becomes a => exact nofun
    | dropped => exact fun _ => rfl
  cases answer with
  | error e => cases heq
  | ok pair =>
      cases heq
      obtain ⟨hp, hq⟩ := h _ _ rfl
      exact ⟨fun hdropped => hp (hmap _ hdropped), fun hdropped => hq (hmap _ hdropped)⟩

end Reconciled

variable {α : Type}

theorem Content.leaving_subset (content : Content α) (change : Change) :
    content.leaving change ⊆ content.children := by
  intro child hchild
  unfold leaving at hchild
  split at hchild
  · exact List.mem_of_getElem? (Option.mem_toList.1 hchild)
  · exact List.mem_of_getElem? (Option.mem_toList.1 hchild)
  · exact hchild
  · exact List.mem_map_of_mem (Entries.mem_of_find? (Option.mem_toList.1 hchild))
  · exact List.mem_map_of_mem (Entries.mem_of_find? (Option.mem_toList.1 hchild))
  · exact hchild
  · cases hchild

namespace ArrayChange
open Reconciled

theorem covers_removeReplace (items : List α) (i j : Nat) (next : Element) :
    (removeReplace i j next).Covers
      ((Content.array items).leaving (.array (.remove i)) ⊆
        (Content.array items).leaving (.array (.replace j next)))
      ((Content.array items).leaving (.array (.replace j next)) ⊆
        (Content.array items).leaving (.array (.remove i))) := by
  unfold removeReplace
  split_ifs with hlt heq
  · exact covers_both _ _
  · subst heq
    exact covers_secondOnly _ (List.Subset.refl _)
  · exact covers_both _ _

theorem covers_transform (items : List α) (c d : ArrayChange) :
    (c.transform d).Covers
      ((Content.array items).leaving (.array c) ⊆ (Content.array items).leaving (.array d))
      ((Content.array items).leaving (.array d) ⊆ (Content.array items).leaving (.array c)) := by
  have hall (change : ArrayChange) : (Content.array items).leaving (.array change) ⊆ items :=
    Content.leaving_subset (.array items) (.array change)
  cases c with
  | set vs =>
      cases d with
      | set ws => exact covers_firstWins _ (List.Subset.refl _) (List.Subset.refl _)
      | _ => exact covers_firstOnly _ (hall _)
  | remove i =>
      cases d with
      | set ws => exact covers_secondOnly _ (hall _)
      | remove j =>
          simp only [transform]
          split_ifs with heq hlt
          · subst heq
            exact covers_of _ (List.Subset.refl _) (List.Subset.refl _)
          · exact covers_both _ _
          · exact covers_both _ _
      | replace j w => exact covers_removeReplace items i j w
      | move source target =>
          simp only [transform]
          split_ifs with heq
          · exact covers_firstOnly _ (List.nil_subset _)
          · exact covers_both _ _
      | reorder order =>
          simp only [transform, removeReorder]
          split_ifs with hle
          · exact covers_error _
          · exact covers_both _ _
      | insert j w =>
          simp only [transform, insertRemove]
          split_ifs with hle <;> exact (covers_both _ _).swap
  | replace i v =>
      cases d with
      | set ws => exact covers_secondOnly _ (hall _)
      | remove j => exact (covers_removeReplace items j i v).swap
      | replace j w =>
          simp only [transform]
          split_ifs with hne
          · exact covers_both _ _
          · rw [not_not] at hne
            subst hne
            exact covers_firstWins _ (List.Subset.refl _) (List.Subset.refl _)
      | move source target => exact covers_both _ _
      | reorder order =>
          simp only [transform, replaceReorder]
          split_ifs with hle
          · exact covers_error _
          · exact covers_both _ _
      | insert j w =>
          simp only [transform, insertReplace]
          split_ifs with hle <;> exact (covers_both _ _).swap
  | insert i v =>
      cases d with
      | set ws => exact covers_secondOnly _ (hall _)
      | _ =>
          simp only [transform, insertRemove, insertReplace, insertReorder]
          try split_ifs
          all_goals
            first
            | exact covers_error _
            | exact covers_both _ _
  | move source target =>
      cases d with
      | set ws => exact covers_secondOnly _ (hall _)
      | _ =>
          simp only [transform, moveReorder]
          try split_ifs
          all_goals
            first
            | exact covers_error _
            | exact covers_both _ _
            | exact covers_of _ (List.nil_subset _) (List.nil_subset _)
            | exact covers_firstOnly _ (List.nil_subset _)
            | exact covers_secondOnly _ (List.nil_subset _)
  | reorder order =>
      cases d with
      | set ws => exact covers_secondOnly _ (hall _)
      | _ =>
          simp only [transform, insertReorder, removeReorder, replaceReorder, moveReorder,
            reorderReorder]
          split_ifs
          all_goals
            first
            | exact (covers_error _).swap
            | exact covers_error _
            | exact (covers_both _ _).swap
            | exact (covers_secondOnly _ (List.nil_subset _)).swap
            | exact covers_of _ (List.nil_subset _) (List.nil_subset _)

end ArrayChange

namespace ObjectChange
open Reconciled

theorem covers_transform (props : List (String × α)) (c d : ObjectChange) :
    (c.transform d).Covers
      ((Content.object props).leaving (.object c) ⊆ (Content.object props).leaving (.object d))
      ((Content.object props).leaving (.object d) ⊆ (Content.object props).leaving (.object c)) := by
  have hall (change : ObjectChange) :
      (Content.object props).leaving (.object change) ⊆ Entries.values props :=
    Content.leaving_subset (.object props) (.object change)
  by_cases hcset : ∃ ps, c = .set ps
  · obtain ⟨ps, rfl⟩ := hcset
    cases d with
    | set qs => exact covers_firstWins _ (List.Subset.refl _) (List.Subset.refl _)
    | _ => exact covers_firstOnly _ (hall _)
  · by_cases hdset : ∃ qs, d = .set qs
    · obtain ⟨qs, rfl⟩ := hdset
      cases c with
      | set ps => exact absurd ⟨ps, rfl⟩ hcset
      | _ => exact covers_secondOnly _ (hall _)
    · obtain ⟨p, hp⟩ := exists_prop? fun ps h => hcset ⟨ps, h⟩
      obtain ⟨q, hq⟩ := exists_prop? fun qs h => hdset ⟨qs, h⟩
      rw [transform_of_prop? hp hq]
      split_ifs with hpq
      · -- both touch one property, and with it one child
        subst hpq
        cases c <;> cases d <;> cases hp <;> cases hq <;> simp only [onProperty]
        all_goals
          first
          | exact covers_error _
          | exact covers_of _ (List.Subset.refl _) (List.Subset.refl _)
      · exact covers_both _ _

end ObjectChange

/-- A change that is dropped would have taken out nothing but what the other one does. -/
theorem Change.covers_transform (content : Content α) (c d : Change) :
    (c.transform d).Covers (content.leaving c ⊆ content.leaving d)
      (content.leaving d ⊆ content.leaving c) := by
  have hnil {xs ys : List α} (hxs : xs = []) (hys : ys = []) :
      (c.transform d).Covers (xs ⊆ ys) (ys ⊆ xs) := by
    rw [hxs, hys]
    exact Reconciled.covers_of _ (List.Subset.refl _) (List.Subset.refl _)
  by_cases hfamily : c.family = d.family
  · cases content with
    | array items =>
        cases c with
        | array c =>
            cases d with
            | array d => exact (c.covers_transform items d).lift
            | _ => cases hfamily
        | _ =>
            cases d with
            | array d => cases hfamily
            | _ => exact hnil rfl rfl
    | object props =>
        cases c with
        | object c =>
            cases d with
            | object d => exact (c.covers_transform props d).lift
            | _ => cases hfamily
        | _ =>
            cases d with
            | object d => cases hfamily
            | _ => exact hnil rfl rfl
    | _ => exact hnil rfl rfl
  · rw [transform_of_family_ne hfamily]
    exact Reconciled.covers_error _

/-! ## Changes that follow -/

namespace Content

theorem children_perm_of_view {content other : Content ElementId} (hkeyed : content.Keyed)
    (hkeyed' : other.Keyed) (h : content.view = other.view) :
    content.children.Perm other.children := by
  cases content with
  | array items =>
      cases other with
      | array items' => exact .of_eq (View.array.inj h)
      | _ => cases h
  | object props =>
      cases other with
      | object props' =>
          have hslots := View.object.inj h
          have hentries : props.Perm props' := by
            rw [List.perm_ext_iff_of_nodup hkeyed.of_map hkeyed'.of_map]
            rintro ⟨name, child⟩
            rw [← Entries.find?_iff_mem hkeyed, ← Entries.find?_iff_mem hkeyed']
            exact iff_of_eq (congrArg (· = some child) (congrFun hslots name))
          exact hentries.map Prod.snd
      | _ => cases h
  | _ => cases other <;> first | exact .refl _ | cases h

variable {before after₁ after₂ joined : Content ElementId} {change left : Change}
  {child : ElementId}

theorem count_le_of_edit? (hkeyed : before.Keyed) (hlawful : change.Lawful)
    (h : before.edit? Element.id change = some joined)
    (hchild : child ∉ change.payload.map Element.id) :
    joined.children.count child ≤ before.children.count child := by
  obtain ⟨kept, hbefore, hjoined⟩ := exists_kept hkeyed hlawful h
  rw [hjoined.count_eq, hbefore.count_eq, List.count_append, List.count_append,
    List.count_eq_zero.2 hchild]
  omega

/-- A child that a change takes out, and that is still there after another change, is taken out by what is
left of the first one, provided that what both lead to has it no more often than the first one does. -/
theorem leaving_follow (hkeyed : before.Keyed) (hkeyed₂ : after₂.Keyed) (hlawful : change.Lawful)
    (hleft : left.Lawful) (hpayload : left.payload = change.payload) (hnodup : before.children.Nodup)
    (h₁ : before.edit? Element.id change = some after₁)
    (h₂ : after₂.edit? Element.id left = some joined)
    (hcount : joined.children.count child ≤ after₁.children.count child)
    (hleaves : child ∈ before.leaving change) (hstays : child ∈ after₂.children) :
    child ∈ after₂.leaving left := by
  obtain ⟨kept, hbefore, hafter₁⟩ := exists_kept hkeyed hlawful h₁
  obtain ⟨kept', hafter₂, hjoined⟩ := exists_kept hkeyed₂ hleft h₂
  rw [hpayload] at hjoined
  by_contra hnot
  have hgone : kept.count child = 0 :=
    List.count_eq_zero.2 fun hkept =>
      (List.nodup_append.1 (hbefore.nodup_iff.1 hnodup)).2.2 _ hleaves _ hkept rfl
  have hthere : 0 < kept'.count child :=
    List.count_pos_iff.2 ((List.mem_append.1 (hafter₂.mem_iff.1 hstays)).resolve_left hnot)
  rw [hjoined.count_eq, hafter₁.count_eq, List.count_append, List.count_append] at hcount
  omega

theorem leaving_subset_of_view {other after : Content ElementId} (hkeyed : before.Keyed)
    (hkeyed' : other.Keyed) (hlawful : change.Lawful) (hnodup : before.children.Nodup)
    (h₁ : before.edit? Element.id change = some after₁)
    (h₂ : other.edit? Element.id change = some after) (hview : before.view = other.view) :
    before.leaving change ⊆ other.leaving change := by
  intro child hleaves
  have hafter : after₁.view = after.view := by
    have hedit₁ := view_edit? hkeyed change
    have hedit₂ := view_edit? hkeyed' change
    rw [h₁, Option.map_some] at hedit₁
    rw [h₂, ← hview, ← hedit₁, Option.map_some] at hedit₂
    exact (Option.some.inj hedit₂).symm
  have hperm := children_perm_of_view (keyed_edit? hkeyed hlawful h₁)
    (keyed_edit? hkeyed' hlawful h₂) hafter
  refine leaving_follow hkeyed hkeyed' hlawful hlawful rfl hnodup h₁ h₂
    (hperm.count_eq child).ge hleaves ?_
  exact (children_perm_of_view hkeyed hkeyed' hview).subset (leaving_subset before change hleaves)

end Content
end CoEdit
