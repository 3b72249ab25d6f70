import CoEdit.Proofs.Document.Commit
import CoEdit.Proofs.Document.ContentEdit

/-!
# Plans

What a document plans for an edit is what editing the content of the target makes of the ids in it: the
content, the children that go and the trees that come (`revise_plan`). Everything else about plans follows
from that and from what the inverse brings back (`inverse_revise`).
-/
namespace CoEdit

/-- What keeps documents sound: a reorder is a permutation, and no object among what is brought along
repeats a name. -/
structure Change.Regular (change : Change) : Prop where
  lawful : change.Lawful
  keyed : ∀ value ∈ change.payload, value.Keyed

theorem Change.Legal.regular {change : Change} (h : change.Legal) : change.Regular :=
  ⟨h.lawful, h.keyed⟩

namespace Document

variable {doc next : Document} {id : ElementId} {content : Content ElementId} {change : Change}
  {revision : Revision}

/-! ## What is planned -/

theorem reviseArray_plan (doc : Document) (id : ElementId) (items : List ElementId)
    (c : ArrayChange) :
    (doc.reviseArray id items c).toOption.map (fun r => (r.content, r.removed, r.added)) =
      (c.applied? Element.id items).map fun after =>
        (.array after, (Content.array items).leaving (.array c), c.payload) := by
  cases c with
  | insert index value =>
      simp only [reviseArray, ArrayChange.applied?]
      split_ifs <;> first | rfl | omega
  | remove index =>
      simp only [reviseArray, ArrayChange.applied?, Content.leaving]
      split_ifs with h
      · rw [List.getElem?_eq_getElem h]
        rfl
      · rw [List.getElem?_eq_none (by omega)]
        rfl
  | replace index value =>
      simp only [reviseArray, ArrayChange.applied?, Content.leaving]
      split_ifs with h
      · rw [List.getElem?_eq_getElem h]
        rfl
      · rw [List.getElem?_eq_none (by omega)]
        rfl
  | move source target =>
      simp only [reviseArray, ArrayChange.applied?]
      by_cases hs : source < items.length
      · rw [List.getElem?_eq_getElem hs, Position.relocate_eq (List.getElem?_eq_getElem hs)]
        dsimp only
        split_ifs <;> first | rfl | omega
      · rw [List.getElem?_eq_none (by omega), if_neg (by omega)]
        rfl
  | reorder order =>
      simp only [reviseArray, ArrayChange.applied?]
      split_ifs <;> first | rfl | omega
  | set values => rfl

theorem reviseString_plan (id : ElementId) (text : String) (c : StringChange) :
    (reviseString id text c).toOption.map (fun r => (r.content, r.removed, r.added)) =
      (c.edit? text).map fun after => (Content.string after, [], []) := by
  cases c with
  | insert index piece =>
      simp only [reviseString, StringChange.edit?]
      split_ifs <;> first | rfl | omega
  | remove index piece =>
      rw [StringChange.edit?]
      by_cases h : index + piece.length ≤ text.length
      · rw [reviseString_remove h, if_pos h]
        rfl
      · rw [if_neg h]
        by_cases hword : index + piece.length < Word.bound
        · rw [reviseString_remove_of_lt (by omega) hword]
          rfl
        · rw [reviseString_remove_of_bound_le (by omega) (by omega)]
          rfl
  | set next => rfl

theorem reviseObject_plan (doc : Document) (id : ElementId) {props : List (String × ElementId)}
    (hdistinct : Entries.Distinct props) (c : ObjectChange) :
    (doc.reviseObject id props c).toOption.map (fun r => (r.content, r.removed, r.added)) =
      (c.applied? Element.id props).map fun after =>
        (.object after, (Content.object props).leaving (.object c), c.payload) := by
  cases c with
  | add prop value =>
      simp only [reviseObject, ObjectChange.applied?]
      by_cases hprop : prop ∈ Entries.keys props
      · rw [if_pos hprop, if_pos (Entries.contains_iff_mem_keys.2 hprop)]
        rfl
      · rw [if_neg hprop, if_neg (mt Entries.contains_iff_mem_keys.1 hprop),
          Entries.put_of_not_mem hprop]
        rfl
  | assign prop value =>
      simp only [reviseObject, ObjectChange.applied?, Content.leaving]
      split_ifs with hprop
      · obtain ⟨child, hchild⟩ := Entries.exists_find?_of_mem_keys hprop
        rw [hchild, ← Entries.put_of_mem hdistinct hprop]
        rfl
      · rw [(Entries.find?_eq_none_iff prop props).2 hprop]
        rfl
  | remove prop =>
      simp only [reviseObject, ObjectChange.applied?, Content.leaving]
      split_ifs with hprop
      · obtain ⟨child, hchild⟩ := Entries.exists_find?_of_mem_keys hprop
        rw [hchild]
        rfl
      · rw [(Entries.find?_eq_none_iff prop props).2 hprop]
        rfl
  | set values => rfl

/-- A document plans what editing makes of the ids: the content, the children that go and the trees that
come. -/
theorem revise_plan (doc : Document) (id : ElementId) {content : Content ElementId}
    (hkeyed : content.Keyed) (change : Change) :
    (doc.revise id content change).toOption.map (fun r => (r.content, r.removed, r.added)) =
      (content.edit? Element.id change).map fun after =>
        (after, content.leaving change, change.payload) := by
  cases content with
  | array items =>
      cases change with
      | array c =>
          rw [Content.edit?, Option.map_map, revise, Result.toOption_ofExcept]
          exact reviseArray_plan doc id items c
      | _ => rfl
  | object props =>
      cases change with
      | object c =>
          rw [Content.edit?, Option.map_map, revise, Result.toOption_ofExcept]
          exact reviseObject_plan doc id hkeyed c
      | _ => rfl
  | string text =>
      cases change with
      | string c =>
          rw [Content.edit?, Option.map_map]
          exact reviseString_plan id text c
      | _ => rfl
  | number value =>
      cases change with
      | number c => cases c <;> rfl
      | _ => rfl
  | boolean value => cases change <;> rfl
  | date millis => cases change <;> rfl
  | null => cases change <;> rfl

theorem plan_of_revise (hkeyed : content.Keyed) (h : doc.revise id content change = .ok revision) :
    content.edit? Element.id change = some revision.content ∧
      revision.removed = content.leaving change ∧ revision.added = change.payload := by
  have hplan := doc.revise_plan id hkeyed change
  rw [h] at hplan
  obtain ⟨after, hafter, heq⟩ := Option.map_eq_some_iff.1 hplan.symm
  obtain ⟨rfl, hrest⟩ := Prod.mk.inj heq
  obtain ⟨hremoved, hadded⟩ := Prod.mk.inj hrest
  exact ⟨hafter, hremoved.symm, hadded.symm⟩

theorem exists_plan (doc : Document) (id : ElementId) {after : Content ElementId}
    (hkeyed : content.Keyed) (h : content.edit? Element.id change = some after) :
    ∃ revision, doc.revise id content change = .ok revision := by
  have hplan := doc.revise_plan id hkeyed change
  rw [h] at hplan
  cases hrevise : doc.revise id content change with
  | error e =>
      rw [hrevise] at hplan
      cases hplan
  | overflow =>
      rw [hrevise] at hplan
      cases hplan
  | ok revision => exact ⟨revision, rfl⟩

theorem view_of_revise (hkeyed : content.Keyed) (h : doc.revise id content change = .ok revision) :
    content.view.edit? change = some revision.content.view := by
  rw [← Content.view_edit? hkeyed, (plan_of_revise hkeyed h).1, Option.map_some]

theorem exists_revise (doc : Document) (id : ElementId) {view : View} (hkeyed : content.Keyed)
    (h : content.view.edit? change = some view) :
    ∃ revision, doc.revise id content change = .ok revision ∧ revision.content.view = view := by
  rw [← Content.view_edit? hkeyed] at h
  obtain ⟨after, hafter, rfl⟩ := Option.map_eq_some_iff.1 h
  obtain ⟨revision, hrevise⟩ := doc.exists_plan id hkeyed hafter
  have hcontent := (plan_of_revise hkeyed hrevise).1
  rw [hafter] at hcontent
  cases hcontent
  exact ⟨revision, hrevise, rfl⟩

/-! ## What takes a plan back -/

theorem inverse_reviseArray {items : List ElementId} {c : ArrayChange} (hlawful : c.Lawful)
    (h : doc.reviseArray id items c = .ok revision) :
    revision.inverse.Lawful ∧ revision.inverse.payload = revision.removed.map doc.subtree := by
  cases c with
  | insert index value =>
      simp only [reviseArray] at h
      split_ifs at h
      cases h
      exact ⟨trivial, rfl⟩
  | remove index =>
      simp only [reviseArray] at h
      split at h
      · cases h
      · cases h
        exact ⟨trivial, rfl⟩
  | replace index value =>
      simp only [reviseArray] at h
      split at h
      · cases h
      · cases h
        exact ⟨trivial, rfl⟩
  | move source target =>
      simp only [reviseArray] at h
      split at h
      · split_ifs at h
        cases h
        exact ⟨trivial, rfl⟩
      · cases h
  | reorder order =>
      simp only [reviseArray] at h
      split_ifs at h
      cases h
      exact ⟨Reorder.isPermutation_inverse hlawful, rfl⟩
  | set values =>
      cases h
      exact ⟨trivial, rfl⟩

theorem inverse_reviseObject {props : List (String × ElementId)} {c : ObjectChange}
    (hdistinct : Entries.Distinct props) (h : doc.reviseObject id props c = .ok revision) :
    revision.inverse.Lawful ∧ revision.inverse.payload = revision.removed.map doc.subtree := by
  cases c with
  | add prop value =>
      simp only [reviseObject] at h
      split_ifs at h
      cases h
      exact ⟨trivial, rfl⟩
  | assign prop value =>
      simp only [reviseObject] at h
      split at h
      · cases h
      · cases h
        exact ⟨trivial, rfl⟩
  | remove prop =>
      simp only [reviseObject] at h
      split at h
      · cases h
      · cases h
        exact ⟨trivial, rfl⟩
  | set values =>
      cases h
      refine ⟨?_, Entries.values_map doc.subtree props⟩
      change (Entries.keys (props.map fun p => (p.1, doc.subtree p.2))).Nodup
      rw [Entries.keys_map]
      exact hdistinct

theorem inverse_reviseString {text : String} {c : StringChange}
    (h : reviseString id text c = .ok revision) :
    revision.inverse.Lawful ∧ revision.inverse.payload = revision.removed.map doc.subtree := by
  cases c with
  | insert index piece =>
      simp only [reviseString] at h
      split_ifs at h
      cases h
      exact ⟨trivial, rfl⟩
  | remove index piece =>
      obtain ⟨-, rfl⟩ := reviseString_remove_eq_ok_iff.1 h
      exact ⟨trivial, rfl⟩
  | set next =>
      cases h
      exact ⟨trivial, rfl⟩

/-- The inverse of a plan is lawful and brings back the trees that went. -/
theorem inverse_revise (hkeyed : content.Keyed) (hlawful : change.Lawful)
    (h : doc.revise id content change = .ok revision) :
    revision.inverse.Lawful ∧ revision.inverse.payload = revision.removed.map doc.subtree := by
  cases content with
  | array items =>
      cases change with
      | array c => exact inverse_reviseArray hlawful (Result.ofExcept_eq_ok_iff.1 h)
      | _ => cases h
  | object props =>
      cases change with
      | object c => exact inverse_reviseObject hkeyed (Result.ofExcept_eq_ok_iff.1 h)
      | _ => cases h
  | string text =>
      cases change with
      | string c => exact inverse_reviseString h
      | _ => cases h
  | number value =>
      cases change with
      | number c =>
          cases h
          cases c <;> exact ⟨trivial, rfl⟩
      | _ => cases h
  | boolean value =>
      cases change with
      | booleanSet b =>
          cases h
          exact ⟨trivial, rfl⟩
      | _ => cases h
  | date millis =>
      cases change with
      | dateSet m =>
          cases h
          exact ⟨trivial, rfl⟩
      | _ => cases h
  | null => cases change <;> cases h

theorem keyed_of_no_children {tree : Element} (hkeyed : tree.content.Keyed)
    (hchildren : tree.content.children = []) : tree.Keyed := by
  rcases tree with ⟨id, content⟩
  refine Element.keyed_mk.2 ⟨hkeyed, fun child hchild => ?_⟩
  have hnil : content.children = [] := hchildren
  rw [hnil] at hchild
  cases hchild

theorem value?_of_not_contains (h : doc.contains id = false) : doc.value? id = none := by
  rw [not_contains_iff] at h
  unfold value?
  cases doc.nodes.length with
  | zero => rfl
  | succ fuel => rw [Arena.read?, h, Option.map_none]

/-- A bare `null` stands for what is not attached. -/
theorem subtree_of_not_contains (h : doc.contains id = false) : doc.subtree id = .mk id .null := by
  rw [subtree, value?_of_not_contains h]
  rfl

theorem Sound.keyed_subtree (h : doc.Sound) (id : ElementId) : (doc.subtree id).Keyed := by
  cases hid : doc.contains id with
  | true => exact (h.holds_subtree hid).keyed
  | false =>
      rw [subtree_of_not_contains hid]
      exact keyed_of_no_children trivial rfl

/-- A plan brings along what the change does, the children are those before without the removed ones
and with the added ones, and the plan can be undone. -/
structure Fits (content : Content ElementId) (change : Change) (revision : Revision) : Prop where
  added : revision.added = change.payload
  kept : ∃ kept, content.children.Perm (revision.removed ++ kept) ∧
    revision.content.children.Perm (kept ++ revision.added.map Element.id)
  keyed : revision.content.Keyed
  inverse : revision.inverse.Regular

/-- What is planned for a lawful change fits. -/
theorem fits_revise (hdoc : doc.Sound) (hkeyed : content.Keyed) (hlawful : change.Lawful)
    (h : doc.revise id content change = .ok revision) : Fits content change revision := by
  obtain ⟨hcontent, hremoved, hadded⟩ := plan_of_revise hkeyed h
  obtain ⟨hinverse, hback⟩ := inverse_revise hkeyed hlawful h
  refine ⟨hadded, ?_, Content.keyed_edit? hkeyed hlawful hcontent, hinverse, fun value hvalue => ?_⟩
  · rw [hremoved, hadded]
    exact Content.exists_kept hkeyed hlawful hcontent
  · rw [hback] at hvalue
    obtain ⟨child, -, rfl⟩ := List.mem_map.1 hvalue
    exact hdoc.keyed_subtree child

end Document
end CoEdit
