import CoEdit.Proofs.Document.Apply
import CoEdit.Proofs.Record.Operation

/-!
# Documents that can be written

A document can be written if the numbers in it are finite and the dates in it are words with a sign. An edit
that can be written leaves such a document exactly if it makes no sum that is too large
(`Writable.applyEdit_iff`), and the edit that takes it back can be written in any case
(`Writable.inverse_applyEdit`): it names the indices that the edit named, and brings back what the document
held.
-/
namespace CoEdit

namespace Content

variable {α β : Type} {content : Content α}

/-- A number is finite and a date is a word with a sign. -/
structure Writable (content : Content α) : Prop where
  finite : content.Finite
  dated : content.Dated

theorem writable_map (f : α → β) : (content.map f).Writable ↔ content.Writable := by
  cases content <;> exact ⟨fun h => ⟨h.finite, h.dated⟩, fun h => ⟨h.finite, h.dated⟩⟩

end Content

theorem Element.writable_iff {tree : Element} : (∀ x ∈ tree.preorder, x.content.Writable) ↔
    tree.firstNonFinite? = none ∧ tree.Dated := by
  rw [firstNonFinite?_eq_none_iff]
  exact ⟨fun h => ⟨fun x hx => (h x hx).finite, fun x hx => (h x hx).dated⟩,
    fun h x hx => ⟨h.1 x hx, h.2 x hx⟩⟩

namespace Change

variable {change : Change}

/-- A change that can be made and written. -/
structure Writable (change : Change) : Prop where
  legal : change.Legal
  worded : change.Worded

theorem Writable.payload (h : change.Writable) {value : Element} (hvalue : value ∈ change.payload) :
    ∀ x ∈ value.preorder, x.content.Writable :=
  Element.writable_iff.2 ⟨finite_payload h.legal.finite value hvalue, h.worded.payload value hvalue⟩

end Change

/-- What a change that can be written makes of a content that can be, unless it makes a sum that is not
finite. -/
theorem Content.writable_edit? {content after : Content ElementId} {change : Change}
    (hcontent : content.Writable) (hchange : change.Writable)
    (hsum : ∀ x amount, content = .number x → change = .number (.delta amount) →
      (x + amount).isFinite = true)
    (hedit : content.edit? Element.id change = some after) : after.Writable := by
  cases content with
  | number x =>
      cases change with
      | number c =>
          have hamount := Change.finite_amount hchange.legal.finite
          cases c with
          | delta amount =>
              cases hedit
              exact ⟨hsum x amount rfl rfl, trivial⟩
          | set value =>
              cases hedit
              exact ⟨hamount, trivial⟩
      | _ => cases hedit
  | date ms =>
      cases change with
      | dateSet next =>
          cases hedit
          exact ⟨trivial, hchange.worded.dates next List.mem_cons_self⟩
      | _ => cases hedit
  | boolean value =>
      cases change with
      | booleanSet next =>
          cases hedit
          exact ⟨trivial, trivial⟩
      | _ => cases hedit
  | string text =>
      cases change with
      | string c =>
          obtain ⟨next, -, rfl⟩ := Option.map_eq_some_iff.1 hedit
          exact ⟨trivial, trivial⟩
      | _ => cases hedit
  | array items =>
      cases change with
      | array c =>
          obtain ⟨next, -, rfl⟩ := Option.map_eq_some_iff.1 hedit
          exact ⟨trivial, trivial⟩
      | _ => cases hedit
  | object props =>
      cases change with
      | object c =>
          obtain ⟨next, -, rfl⟩ := Option.map_eq_some_iff.1 hedit
          exact ⟨trivial, trivial⟩
      | _ => cases hedit
  | null => cases hedit

namespace Document

variable {doc next : Document} {id : ElementId} {node : Node} {edit : Edit} {revision : Revision}
  {record : Option Applied}

/-- What every attached element holds can be written. -/
def Writable (doc : Document) : Prop :=
  ∀ {id node}, Entries.find? id doc.nodes = some node → node.content.Writable

theorem Writable.holds {tree : Element} (h : doc.Writable) (htree : doc.Holds id tree) :
    ∀ x ∈ tree.preorder, x.content.Writable := by
  intro x hx
  obtain ⟨node, hnode, hcontent⟩ := htree.found x hx
  have hwritable := h hnode
  rwa [← hcontent, Content.writable_map] at hwritable

theorem Writable.subtree (h : doc.Writable) (hdoc : doc.Sound) (id : ElementId) :
    (doc.subtree id).firstNonFinite? = none ∧ (doc.subtree id).Dated := by
  rw [← Element.writable_iff]
  cases hid : doc.contains id with
  | true => exact h.holds (hdoc.holds_subtree hid)
  | false =>
      rw [subtree_of_not_contains hid]
      exact Element.forall_preorder_mk.2 ⟨⟨trivial, trivial⟩, nofun⟩

/-- A document can be written if its tree can. -/
theorem Sound.writable_iff (hdoc : doc.Sound) :
    doc.Writable ↔ doc.snapshot.firstNonFinite? = none ∧ doc.snapshot.Dated := by
  refine ⟨fun h => h.subtree hdoc doc.root, fun h {id node} hnode => ?_⟩
  obtain ⟨x, hx, rfl⟩ := List.mem_map.1 (hdoc.mem_ids_snapshot.2 (contains_iff.2 ⟨node, hnode⟩))
  obtain ⟨node', hnode', hcontent⟩ := hdoc.holds_snapshot.found x hx
  rw [hnode] at hnode'
  cases hnode'
  rw [← hcontent, Content.writable_map]
  exact Element.writable_iff.2 h x hx

/-! ## One edit -/

/-- Whether the edit adds to a number and the sum is not finite. -/
def overflows (doc : Document) (edit : Edit) : Bool :=
  match Entries.find? edit.target doc.nodes, edit.change with
  | some ⟨_, .number x⟩, .number (.delta amount) => !edit.inert && !(x + amount).isFinite
  | _, _ => false

namespace Acted

variable (hacted : doc.Acted edit node revision)
include hacted

theorem overflows_eq_false_iff : doc.overflows edit = false ↔ ∀ x amount, node.content = .number x →
    edit.change = .number (.delta amount) → (x + amount).isFinite = true := by
  obtain ⟨parent, content⟩ := node
  unfold overflows
  rw [hacted.found, hacted.active]
  constructor
  · rintro h x amount rfl hchange
    simpa [hchange] using h
  · intro h
    split
    · next x amount hfound hchange =>
        cases hfound
        simpa using h x amount rfl hchange
    · rfl

theorem writable_revised_iff (h : doc.Writable) (hdoc : doc.Sound) (hedit : edit.change.Writable) :
    (doc.revised edit revision).Writable ↔ revision.content.Writable := by
  have g := hacted.grafts hdoc hedit.legal.regular
  refine ⟨fun hafter => hafter (g.find?_target hdoc), fun hcontent id after hafter => ?_⟩
  rcases g.cases_find? hdoc hafter with hnew | ⟨rfl, rfl⟩ | ⟨-, -, hbefore⟩
  · obtain ⟨tree, htree, hplaced⟩ := List.mem_flatMap.1 hnew
    obtain ⟨x, hx, -, hcontent⟩ := Element.exists_of_mem_placed hplaced
    rw [(hacted.plan hdoc).2.2] at htree
    rw [← hcontent, Content.writable_map]
    exact hedit.payload htree x hx
  · exact hcontent
  · exact h hbefore

end Acted

theorem overflows_of_idle (h : edit.inert = true ∨ doc.contains edit.target = false) :
    doc.overflows edit = false := by
  unfold overflows
  split
  · next x amount hfound _ =>
      rcases h with hinert | habsent
      · rw [hinert]
        rfl
      · rw [not_contains_iff, hfound] at habsent
        cases habsent
  · rfl

/-- An edit that can be written leaves a document that can be written exactly if it makes no sum that is not
finite. -/
theorem Writable.applyEdit_iff (h : doc.Writable) (hdoc : doc.Sound) (hedit : edit.change.Writable)
    (happly : doc.applyEdit edit = .ok (record, next)) :
    next.Writable ↔ doc.overflows edit = false := by
  rcases cases_applyEdit happly with ⟨hidle, -, rfl⟩ | ⟨node, revision, hacted, -, rfl⟩
  · exact iff_of_true h (overflows_of_idle hidle)
  · rw [hacted.writable_revised_iff h hdoc hedit, hacted.overflows_eq_false_iff]
    have hcontent := (hacted.plan hdoc).1
    refine ⟨fun hafter x amount hnumber hdelta => ?_, fun hsum =>
      Content.writable_edit? (h hacted.found) hedit hsum hcontent⟩
    rw [hnumber, hdelta] at hcontent
    have hsum := hafter.finite
    rwa [← Option.some.inj hcontent] at hsum

/-! ## What takes an edit back -/

theorem mem_of_mem_inverse {order : List Nat} {i : Nat} (h : Reorder.isPermutation order = true)
    (hi : i ∈ Reorder.inverse order) : i ∈ order := by
  have hlt := Reorder.lt_of_mem (Reorder.isPermutation_inverse h) hi
  rw [Reorder.length_inverse] at hlt
  exact Reorder.mem_of_lt h hlt

/-- What takes a change of a content back names no other indices than the change, no other date than the
content, and no other number than that of the content or, with the other sign, that of the change. -/
structure Reverts (content : Content ElementId) (change inverse : Change) : Prop where
  indices : inverse.indices ⊆ change.indices
  dates : ∀ ms ∈ inverse.dates, content = .date ms
  amount : ∀ c, inverse = .number c →
    content = .number c.amount ∨ ∃ d, change = .number d ∧ c.amount = -d.amount

theorem reverts_of_indices {content : Content ElementId} {change inverse : Change}
    (hindices : inverse.indices ⊆ change.indices) (hdates : inverse.dates = [])
    (hamount : ∀ c, inverse ≠ .number c) : Reverts content change inverse where
  indices := hindices
  dates _ hms := absurd (hdates ▸ hms) List.not_mem_nil
  amount c hc := absurd hc (hamount c)

theorem reverts_reviseArray {items : List ElementId} {c : ArrayChange} (hlawful : c.Lawful)
    (h : doc.reviseArray id items c = .ok revision) :
    Reverts (.array items) (.array c) revision.inverse := by
  cases c with
  | insert index value =>
      simp only [reviseArray] at h
      split_ifs at h
      cases h
      exact reverts_of_indices (List.Subset.refl _) rfl (by simp)
  | remove index | replace index value =>
      simp only [reviseArray] at h
      split at h
      · cases h
      · cases h
        exact reverts_of_indices (List.Subset.refl _) rfl (by simp)
  | move source target =>
      simp only [reviseArray] at h
      split at h
      · split_ifs at h
        cases h
        exact reverts_of_indices (List.Perm.swap source target []).subset rfl (by simp)
      · cases h
  | reorder order =>
      simp only [reviseArray] at h
      split_ifs at h
      cases h
      exact reverts_of_indices (fun i => mem_of_mem_inverse hlawful) rfl (by simp)
  | set values =>
      cases h
      exact reverts_of_indices (List.nil_subset _) rfl (by simp)

theorem reverts_reviseString {text : String} {c : StringChange}
    (h : reviseString id text c = .ok revision) :
    Reverts (.string text) (.string c) revision.inverse := by
  cases c with
  | insert index piece =>
      simp only [reviseString] at h
      split_ifs at h
      cases h
      exact reverts_of_indices (List.Subset.refl _) rfl (by simp)
  | remove index piece =>
      obtain ⟨-, rfl⟩ := reviseString_remove_eq_ok_iff.1 h
      exact reverts_of_indices (List.Subset.refl _) rfl (by simp)
  | set next =>
      cases h
      exact reverts_of_indices (List.nil_subset _) rfl (by simp)

theorem reverts_reviseObject {props : List (String × ElementId)} {c : ObjectChange}
    (h : doc.reviseObject id props c = .ok revision) :
    Reverts (.object props) (.object c) revision.inverse := by
  cases c with
  | add prop value =>
      simp only [reviseObject] at h
      split_ifs at h
      cases h
      exact reverts_of_indices (List.nil_subset _) rfl (by simp)
  | assign prop value | remove prop =>
      simp only [reviseObject] at h
      split at h
      · cases h
      · cases h
        exact reverts_of_indices (List.nil_subset _) rfl (by simp)
  | set values =>
      cases h
      exact reverts_of_indices (List.nil_subset _) rfl (by simp)

theorem reverts_reviseNumber (value : Float) (c : NumberChange) :
    Reverts (.number value) (.number c) (reviseNumber value c).inverse := by
  cases c with
  | delta amount =>
      refine ⟨List.nil_subset _, fun _ hms => absurd hms List.not_mem_nil, ?_⟩
      rintro _ ⟨⟩
      exact .inr ⟨_, rfl, rfl⟩
  | set next =>
      refine ⟨List.nil_subset _, fun _ hms => absurd hms List.not_mem_nil, ?_⟩
      rintro _ ⟨⟩
      exact .inl rfl

theorem reverts_revise {content : Content ElementId} {change : Change} (hlawful : change.Lawful)
    (h : doc.revise id content change = .ok revision) : Reverts content change revision.inverse := by
  cases content with
  | array items =>
      cases change with
      | array c => exact reverts_reviseArray hlawful (Result.ofExcept_eq_ok_iff.1 h)
      | _ => cases h
  | string text =>
      cases change with
      | string c => exact reverts_reviseString h
      | _ => cases h
  | object props =>
      cases change with
      | object c => exact reverts_reviseObject (Result.ofExcept_eq_ok_iff.1 h)
      | _ => cases h
  | number value =>
      cases change with
      | number c =>
          cases h
          exact reverts_reviseNumber value c
      | _ => cases h
  | boolean value =>
      cases change with
      | booleanSet next =>
          cases h
          exact reverts_of_indices (List.nil_subset _) rfl (by simp)
      | _ => cases h
  | date millis =>
      cases change with
      | dateSet next =>
          cases h
          refine ⟨List.nil_subset _, fun ms hms => ?_, by simp⟩
          rw [List.mem_singleton.1 hms]
      | _ => cases h
  | null => cases change <;> cases h

/-- What takes an edit of a document that can be written back can be made and written, whatever the edit made
of the document. -/
theorem Writable.inverse_applyEdit {done : Applied} (h : doc.Writable) (hdoc : doc.Sound)
    (hedit : edit.change.Writable) (happly : doc.applyEdit edit = .ok (some done, next)) :
    done.inverse.change.Writable ∧ done.inverse.inert = false := by
  have hregular := regular_of_applyEdit hdoc hedit.legal.regular happly
  rcases cases_applyEdit happly with ⟨-, hnone, -⟩ | ⟨node, revision, hacted, hsome, -⟩
  · cases hnone
  · cases hsome
    have hcontent := h hacted.found
    have hreverts := reverts_revise hedit.legal.lawful hacted.planned
    have htrees : ∀ value ∈ revision.inverse.payload, value.firstNonFinite? = none ∧ value.Dated := by
      rw [(inverse_revise (hdoc.keyed hacted.found) hedit.legal.lawful hacted.planned).2]
      exact List.forall_mem_map.2 fun child _ => h.subtree hdoc child
    refine ⟨⟨(Change.legal_iff _).2 ⟨?_, hregular.keyed, hregular.lawful⟩, ?_⟩, hacted.active⟩
    · rw [Option.isNone_iff_eq_none, Change.firstNonFinite?_eq_none_iff]
      refine ⟨fun c hc => ?_, fun value hvalue => (htrees value hvalue).1⟩
      rcases hreverts.amount c hc with hnumber | ⟨d, hd, hneg⟩
      · have hfinite := hcontent.finite
        rwa [hnumber] at hfinite
      · have hamount := hedit.legal.finite
        rw [hd] at hamount
        rw [hneg]
        exact Number.isFinite_neg (Change.finite_amount hamount)
    · refine ⟨fun i hi => hedit.worded.indices i (hreverts.indices hi), fun ms hms => ?_,
        fun value hvalue => (htrees value hvalue).2⟩
      have hdated := hcontent.dated
      rwa [hreverts.dates ms hms] at hdated

end Document
end CoEdit
