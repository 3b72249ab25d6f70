import CoEdit.Proofs.Document.Alike
import CoEdit.Proofs.Document.Refinement

/-!
# Taking an edit back

The inverse of an edit restores the content of the edited element, up to the rounding of a number that
was added to and up to the place of a property that was removed (`exists_undone`). The trees that it
brings back are those that had gone, and those that it takes out are those that had come. So it is taken
by any document that is like the one after the edit, and leads to one like the one before
(`Acted.exists_undo`).
-/
namespace CoEdit

/-! ## Single changes -/

theorem Text.insert_slice {index : Nat} (count : Nat) {text : String} (h : index ≤ text.length) :
    insert index (slice index count text) (remove index count text) = text := by
  apply String.toList_inj.1
  have hlen : (text.toList.take index).length = index :=
    List.length_take_of_le (by rwa [String.length_toList])
  rw [toList_insert, toList_slice, toList_remove, List.take_left' hlen, List.drop_left' hlen,
    List.append_assoc, ← List.drop_drop, List.take_append_drop, List.take_append_drop]

theorem Position.relocate_back {α : Type} {source target : Nat} {items : List α}
    (hs : source < items.length) (ht : target < items.length) :
    relocate target source (relocate source target items) = items := by
  rw [relocate_relocate hs ht, relocate_eq (List.getElem?_eq_getElem hs),
    insertIdx_eraseIdx_self _ hs, List.set_getElem_self]

namespace Entries

variable {α : Type} {prop : String} {value child : α} {props others : List (String × α)}

theorem erase_put (h : prop ∉ keys props) : erase prop (put prop value props) = props := by
  rw [put_of_not_mem h, erase, List.filter_append, ← erase, erase_of_not_mem h]
  simp

theorem put_put (h : find? prop props = some child) :
    put prop child (put prop value props) = props := by
  induction props with
  | nil => cases h
  | cons p rest ih =>
      rcases p with ⟨name, other⟩
      rw [find?_cons] at h
      split_ifs at h with hname
      · cases h
        subst hname
        rw [put, if_pos rfl, put, if_pos rfl]
      · rw [put, if_neg hname, put, if_neg hname, ih h]

/-- A property that is removed and added again moves to the end. -/
theorem perm_put_erase (hdistinct : Distinct props) (h : find? prop props = some child) :
    props.Perm (put prop child (erase prop props)) := by
  have hgone : prop ∉ keys (erase prop props) := by
    rw [← find?_eq_none_iff, find?_erase, if_pos rfl]
  rw [put_of_not_mem hgone]
  exact (perm_erase hdistinct h).trans (List.perm_append_singleton _ _).symm

theorem find?_of_perm (hdistinct : Distinct props) (h : props.Perm others) (prop : String) :
    find? prop others = find? prop props := by
  have hothers : Distinct others := (h.map Prod.fst).nodup_iff.1 hdistinct
  apply Option.ext
  intro value
  rw [find?_iff_mem hothers, find?_iff_mem hdistinct, h.mem_iff]

theorem put_perm (hdistinct : Distinct props) (h : props.Perm others) (prop : String) (value : α) :
    (put prop value props).Perm (put prop value others) := by
  have hothers : Distinct others := (h.map Prod.fst).nodup_iff.1 hdistinct
  have hkeys : prop ∈ keys others ↔ prop ∈ keys props := (h.map Prod.fst).mem_iff.symm
  by_cases hmem : prop ∈ keys props
  · rw [put_of_mem hdistinct hmem, put_of_mem hothers (hkeys.2 hmem)]
    exact h.map _
  · rw [put_of_not_mem hmem, put_of_not_mem (mt hkeys.1 hmem)]
    exact h.append_right _

end Entries

/-- Whether the change takes a property out of an object. -/
def Change.prunes : Change → Bool
  | .object (.remove _) => true
  | _ => false

/-- Whether the edit is in force and takes a property out of the object `id`. -/
def Edit.RemovesFrom (id : ElementId) (edit : Edit) : Prop :=
  edit.inert = false ∧ edit.change.prunes = true ∧ edit.target = id

namespace Document

variable {doc other : Document} {id : ElementId} {before seen : Content ElementId}
  {loose reordered : Prop} {revision undone : Revision}

theorem id_subtree (doc : Document) (id : ElementId) : (doc.subtree id).id = id := by
  rw [subtree, value?]
  cases doc.nodes.length with
  | zero => rfl
  | succ fuel =>
      rw [Arena.read?]
      cases Entries.find? id doc.nodes <;> rfl

theorem map_id_subtree (doc : Document) (ids : List ElementId) :
    (ids.map doc.subtree).map Element.id = ids := by
  rw [List.map_map]
  exact (List.map_congr_left fun id _ => doc.id_subtree id).trans (List.map_id ids)

/-- The plan `undone` takes back what the plan `revision` did to the content `before`. -/
structure Undoes (doc : Document) (before : Content ElementId) (loose reordered : Prop)
    (revision undone : Revision) : Prop where
  content : before.Alike loose reordered undone.content
  removed : undone.removed.Perm (revision.added.map Element.id)
  added : undone.added = revision.removed.map doc.subtree

theorem Undoes.mono {loose' reordered' : Prop} (h : doc.Undoes before loose reordered revision undone)
    (hloose : loose → loose') (hreordered : reordered → reordered') :
    doc.Undoes before loose' reordered' revision undone :=
  ⟨h.content.mono hloose hreordered, h.removed, h.added⟩

theorem exists_undone_array {items : List ElementId} {c : ArrayChange} (hlawful : c.Lawful)
    (h : doc.reviseArray id items c = .ok revision)
    (hseen : revision.content.Alike loose reordered seen) (other : Document) :
    ∃ undone, other.revise id seen revision.inverse = .ok undone ∧
      doc.Undoes (.array items) loose reordered revision undone := by
  cases c with
  | insert index value =>
      simp only [reviseArray] at h
      split_ifs at h with hindex
      cases h
      cases hseen
      have hitem : (items.insertIdx index value.id)[index]? = some value.id := by
        rw [List.getElem?_insertIdx_self, if_pos (not_lt.1 hindex)]
      refine ⟨_, by simp only [revise, reviseArray, hitem]; rfl, ?_, .refl _, rfl⟩
      rw [List.eraseIdx_insertIdx_self]
      exact .refl _
  | remove index =>
      simp only [reviseArray] at h
      split at h
      · cases h
      · next child hchild =>
          cases h
          cases hseen
          obtain ⟨hindex, rfl⟩ := List.getElem?_eq_some_iff.1 hchild
          have hgap : ¬(items.eraseIdx index).length < index := by
            rw [List.length_eraseIdx, if_pos hindex]
            omega
          refine ⟨_, by simp only [revise, reviseArray, if_neg hgap]; rfl, ?_, .refl _, rfl⟩
          rw [id_subtree, Position.insertIdx_eraseIdx_self _ hindex, List.set_getElem_self]
          exact .refl _
  | replace index value =>
      simp only [reviseArray] at h
      split at h
      · cases h
      · next child hchild =>
          cases h
          cases hseen
          obtain ⟨hindex, rfl⟩ := List.getElem?_eq_some_iff.1 hchild
          have hitem : (items.set index value.id)[index]? = some value.id :=
            List.getElem?_set_self hindex
          refine ⟨_, by simp only [revise, reviseArray, hitem]; rfl, ?_, .refl _, rfl⟩
          rw [id_subtree, List.set_set, List.set_getElem_self]
          exact .refl _
  | move source target =>
      simp only [reviseArray] at h
      split at h
      · next child hchild =>
          split_ifs at h with htarget
          cases h
          cases hseen
          obtain ⟨hsource, -⟩ := List.getElem?_eq_some_iff.1 hchild
          have hlength := Position.length_relocate hsource htarget
          have hmoved := Position.getElem?_relocate (p := source) hsource htarget
          have hback := Position.relocate_back hsource htarget
          rw [Position.afterMove_self, hchild] at hmoved
          rw [Position.relocate_eq hmoved] at hback
          rw [Position.relocate_eq hchild] at hlength hmoved hback
          refine ⟨_, by simp only [revise, reviseArray, hmoved, hlength, if_pos hsource]; rfl, ?_,
            .refl _, rfl⟩
          rw [hback]
          exact .refl _
      · cases h
  | reorder order =>
      simp only [reviseArray] at h
      split_ifs at h with hlen
      cases h
      cases hseen
      have hlength : (Reorder.inverse order).length = (Reorder.permute order items).length := by
        rw [Reorder.length_inverse, (Reorder.permute_perm hlawful (not_not.1 hlen)).length_eq]
        exact not_not.1 hlen
      refine ⟨_, by simp only [revise, reviseArray, if_neg (not_not.2 hlength)]; rfl, ?_,
        .refl _, rfl⟩
      rw [Reorder.permute_inverse hlawful (not_not.1 hlen)]
      exact .refl _
  | set values =>
      cases h
      cases hseen
      refine ⟨_, rfl, ?_, .refl _, rfl⟩
      rw [map_id_subtree]
      exact .refl _

theorem exists_undone_string {text : String} {c : StringChange}
    (h : reviseString id text c = .ok revision)
    (hseen : revision.content.Alike loose reordered seen) (doc other : Document) :
    ∃ undone, other.revise id seen revision.inverse = .ok undone ∧
      doc.Undoes (.string text) loose reordered revision undone := by
  cases c with
  | insert index piece =>
      simp only [reviseString] at h
      split_ifs at h with hindex
      cases h
      cases hseen
      have hlength : index + piece.length ≤ (Text.insert index piece text).length := by
        rw [Text.length_insert (not_lt.1 hindex)]
        omega
      refine ⟨_, reviseString_remove hlength .checked, ?_, .refl _, rfl⟩
      rw [Text.remove_insert piece (not_lt.1 hindex)]
      exact .refl _
  | remove index piece =>
      obtain ⟨hindex, rfl⟩ := reviseString_remove_eq_ok_iff.1 h
      cases hseen
      have hlength : ¬(Text.remove index piece.length text).length < index := by
        rw [Text.length_remove hindex]
        omega
      refine ⟨_, by simp only [revise, reviseString, if_neg hlength]; rfl, ?_, .refl _, rfl⟩
      rw [Text.insert_slice piece.length (by omega)]
      exact .refl _
  | set next =>
      cases h
      cases hseen
      exact ⟨_, rfl, .refl _, .refl _, rfl⟩

theorem exists_undone_object {props : List (String × ElementId)} {c : ObjectChange}
    (hdistinct : Entries.Distinct props) (hlawful : c.Lawful)
    (h : doc.reviseObject id props c = .ok revision)
    (hseen : revision.content.Alike loose reordered seen) (other : Document) :
    ∃ undone, other.revise id seen revision.inverse = .ok undone ∧
      doc.Undoes (.object props) loose (reordered ∨ (Change.object c).prunes = true) revision
        undone := by
  cases c with
  | add prop value =>
      simp only [reviseObject] at h
      split_ifs at h with hcontains
      cases h
      obtain ⟨others, rfl⟩ := hseen.exists_props
      have hgone : prop ∉ Entries.keys props := mt Entries.contains_iff_mem_keys.2 hcontains
      have hfound : Entries.find? prop others = some value.id := by
        rw [Entries.find?_of_perm (Entries.distinct_put hdistinct prop value.id) hseen.perm_props,
          Entries.find?_put, if_pos rfl]
      refine ⟨_, by simp only [revise, reviseObject, hfound]; rfl, ?_, .refl _, rfl⟩
      have halike := hseen.map_props (f := Entries.erase prop) fun hperm => hperm.filter _
      rw [Entries.erase_put hgone] at halike
      exact halike.mono (fun h => h) Or.inl
  | assign prop value =>
      simp only [reviseObject] at h
      split at h
      · cases h
      · next child hchild =>
          cases h
          obtain ⟨others, rfl⟩ := hseen.exists_props
          have hput := Entries.distinct_put hdistinct prop value.id
          have hfound : Entries.find? prop others = some value.id := by
            rw [Entries.find?_of_perm hput hseen.perm_props, Entries.find?_put, if_pos rfl]
          refine ⟨_, by simp only [revise, reviseObject, hfound]; rfl, ?_, .refl _, rfl⟩
          have halike := hseen.map_props (f := Entries.put prop child) fun hperm =>
            Entries.put_perm hput hperm prop child
          rw [Entries.put_put hchild] at halike
          rw [id_subtree]
          exact halike.mono (fun h => h) Or.inl
  | remove prop =>
      simp only [reviseObject] at h
      split at h
      · cases h
      · next child hchild =>
          cases h
          obtain ⟨others, rfl⟩ := hseen.exists_props
          have herase := Entries.distinct_erase prop hdistinct
          have hfound : Entries.find? prop others = none := by
            rw [Entries.find?_of_perm herase hseen.perm_props, Entries.find?_erase, if_pos rfl]
          have hcontains : ¬Entries.contains prop others = true := by
            rw [Entries.contains, hfound]
            exact Bool.false_ne_true
          refine ⟨_, by simp only [revise, reviseObject, if_neg hcontains]; rfl, ?_, .refl _, rfl⟩
          rw [id_subtree]
          exact .object (.inr rfl) ((Entries.perm_put_erase hdistinct hchild).trans
            (Entries.put_perm herase hseen.perm_props prop child))
  | set values =>
      cases h
      obtain ⟨others, rfl⟩ := hseen.exists_props
      refine ⟨_, rfl, ?_, ?_, ?_⟩
      · have hback : (props.map fun p => (p.1, doc.subtree p.2)).map (fun p => (p.1, p.2.id)) =
            props := by
          rw [List.map_map]
          refine (List.map_congr_left fun p _ => ?_).trans (List.map_id props)
          exact Prod.ext rfl (doc.id_subtree p.2)
        rw [hback]
        exact .refl _
      · have hvalues := (hseen.perm_props.map Prod.snd).symm
        rwa [← Entries.values_map]
      · exact Entries.values_map doc.subtree props

/-- A plan can be taken back wherever the target is as the plan left it or alike. Only the rounding of a
number that was added to and the place of a property that was removed are not restored. -/
theorem exists_undone {change : Change} (hkeyed : before.Keyed) (hlawful : change.Lawful)
    (h : doc.revise id before change = .ok revision)
    (hseen : revision.content.Alike loose reordered seen) (other : Document) :
    ∃ undone, other.revise id seen revision.inverse = .ok undone ∧
      doc.Undoes before (loose ∨ change.isDelta = true) (reordered ∨ change.prunes = true) revision
        undone := by
  cases before with
  | array items =>
      cases change with
      | array c =>
          obtain ⟨undone, hplan, hundoes⟩ := exists_undone_array hlawful (Result.ofExcept_eq_ok_iff.1 h) hseen other
          exact ⟨undone, hplan, hundoes.mono .inl .inl⟩
      | _ => cases h
  | object props =>
      cases change with
      | object c =>
          obtain ⟨undone, hplan, hundoes⟩ := exists_undone_object hkeyed hlawful (Result.ofExcept_eq_ok_iff.1 h) hseen other
          exact ⟨undone, hplan, hundoes.mono .inl fun h => h⟩
      | _ => cases h
  | string text =>
      cases change with
      | string c =>
          obtain ⟨undone, hplan, hundoes⟩ := exists_undone_string h hseen doc other
          exact ⟨undone, hplan, hundoes.mono .inl .inl⟩
      | _ => cases h
  | number value =>
      cases change with
      | number c =>
          cases h
          cases c with
          | delta amount =>
              cases hseen with
              | refl => exact ⟨_, rfl, .number (.inr rfl) _ _, .refl _, rfl⟩
              | number free x y => exact ⟨_, rfl, .number (.inr rfl) _ _, .refl _, rfl⟩
          | set next =>
              cases hseen with
              | refl => exact ⟨_, rfl, .refl _, .refl _, rfl⟩
              | number free x y => exact ⟨_, rfl, .refl _, .refl _, rfl⟩
      | _ => cases h
  | boolean value =>
      cases change with
      | booleanSet next =>
          cases h
          cases hseen
          exact ⟨_, rfl, .refl _, .refl _, rfl⟩
      | _ => cases h
  | date millis =>
      cases change with
      | dateSet next =>
          cases h
          cases hseen
          exact ⟨_, rfl, .refl _, .refl _, rfl⟩
      | _ => cases h
  | null => cases change <;> cases h

/-! ## Single edits -/

variable {edit : Edit} {node : Node} {numbers objects : ElementId → Prop}

theorem Acted.mem_detached_undone (h : doc.Acted edit node revision) (hdoc : doc.Sound)
    (hregular : edit.change.Regular) (hother : other.Sound)
    (halike : (doc.revised edit revision).Alike numbers objects other)
    (hundone : undone.removed.Perm (revision.added.map Element.id)) :
    id ∈ undone.removed.flatMap (fun child => (other.subtree child).ids) ↔
      id ∈ revision.added.flatMap Element.ids := by
  have g := h.grafts hdoc hregular
  have hnext := h.sound hdoc hregular
  rw [List.mem_flatMap, List.mem_flatMap]
  have htree : ∀ tree ∈ revision.added,
      (id ∈ (other.subtree tree.id).ids ↔ id ∈ tree.ids) := by
    intro tree hmem
    have hstored : tree.Stored (doc.revised edit revision).nodes := g.stored_added hmem
    obtain ⟨below, hbelow, -⟩ := hstored tree (Element.mem_preorder_self tree)
    have hattached := (halike.contains_iff hnext hother).2 (contains_iff.2 ⟨below, hbelow⟩)
    rw [(hother.holds_subtree hattached).mem_ids, halike.under_iff hnext hother,
      hnext.mem_ids_iff hstored]
  constructor
  · rintro ⟨child, hchild, hid⟩
    obtain ⟨tree, hmem, rfl⟩ := List.mem_map.1 (hundone.mem_iff.1 hchild)
    exact ⟨tree, hmem, (htree tree hmem).1 hid⟩
  · rintro ⟨tree, hmem, hid⟩
    exact ⟨tree.id, hundone.mem_iff.2 (List.mem_map_of_mem hmem), (htree tree hmem).2 hid⟩

theorem Acted.stored_removed (h : doc.Acted edit node revision) (hdoc : doc.Sound)
    (hregular : edit.change.Regular) {child : ElementId} (hchild : child ∈ revision.removed) :
    (doc.subtree child).Stored doc.nodes := by
  obtain ⟨content, hfound⟩ := hdoc.listed h.found ((h.grafts hdoc hregular).taken child hchild)
  exact (hdoc.holds_subtree (contains_iff.2 ⟨_, hfound⟩)).stored

theorem Acted.nodup_detached (h : doc.Acted edit node revision) (hdoc : doc.Sound)
    (hregular : edit.change.Regular) :
    (revision.removed.flatMap fun child => (doc.subtree child).ids).Nodup := by
  obtain ⟨kept, hbefore, -⟩ :=
    (fits_revise hdoc (hdoc.keyed h.found) hregular.lawful h.planned).kept
  have hstored : ∀ tree ∈ revision.removed.map doc.subtree, tree.Stored doc.nodes := by
    intro tree htree
    obtain ⟨child, hchild, rfl⟩ := List.mem_map.1 htree
    exact h.stored_removed hdoc hregular hchild
  have hlisted : ∀ tree ∈ revision.removed.map doc.subtree,
      tree.id ∈ node.content.children := by
    intro tree htree
    obtain ⟨child, hchild, rfl⟩ := List.mem_map.1 htree
    rw [id_subtree]
    exact hbefore.mem_iff.2 (List.mem_append_left kept hchild)
  rw [← List.flatMap_map]
  refine hdoc.nodup_flatMap_ids h.found hlisted hstored ?_ fun tree htree =>
    hdoc.nodup_ids (hstored tree htree)
  rw [map_id_subtree]
  exact (List.nodup_append.1 (hbefore.nodup_iff.1 (hdoc.children h.found))).1

/-- The inverse of an edit is taken by every document that is like the one after the edit. -/
theorem Acted.acted_undone (h : doc.Acted edit node revision) (hdoc : doc.Sound)
    (hregular : edit.change.Regular) (hother : other.Sound)
    (halike : (doc.revised edit revision).Alike numbers objects other) {above : Node}
    (hfound : Entries.find? edit.target other.nodes = some above)
    (hplan : other.revise edit.target above.content revision.inverse = .ok undone)
    (hundoes : doc.Undoes node.content loose reordered revision undone) :
    other.Acted (edit.withChange revision.inverse) above undone := by
  have g := h.grafts hdoc hregular
  refine ⟨h.active, hfound, hplan, (checkFresh_eq_ok_iff _ _ _).2 ?_⟩
  rw [hundoes.added, List.flatMap_map]
  refine ⟨h.nodup_detached hdoc hregular, fun id hid hattached => ?_⟩
  rw [h.mem_detached_undone hdoc hregular hother halike hundoes.removed]
  -- what had gone and is there again came with the edit
  obtain ⟨after, hafter⟩ := contains_iff.1
    ((halike.contains_iff (h.sound hdoc hregular) hother).1 hattached)
  rcases g.cases_find? hdoc hafter with hnew | ⟨rfl, -⟩ | ⟨-, hstays, -⟩
  · exact mem_added_ids hnew
  · exact absurd hid (g.target_stays hdoc)
  · exact absurd hid hstays

/-- The inverse of an edit is taken by every document that is like the one after the edit, and leads to
a document that is like the one before it. -/
theorem Acted.exists_undone (h : doc.Acted edit node revision) (hdoc : doc.Sound)
    (hregular : edit.change.Regular) (hother : other.Sound)
    (halike : (doc.revised edit revision).Alike numbers objects other) :
    ∃ above undone, other.Acted (edit.withChange revision.inverse) above undone ∧
      doc.Alike (fun id => numbers id ∨ edit.AddsTo id) (fun id => objects id ∨ edit.RemovesFrom id)
        (other.revised (edit.withChange revision.inverse) undone) := by
  have g := h.grafts hdoc hregular
  have hfits := fits_revise hdoc (hdoc.keyed h.found) hregular.lawful h.planned
  obtain ⟨above, habove, hseen⟩ := halike.content (g.find?_target hdoc)
  obtain ⟨undone, hplan, hundoes⟩ := Document.exists_undone (hdoc.keyed h.found) hregular.lawful
    h.planned hseen other
  have hacted := h.acted_undone hdoc hregular hother halike habove hplan hundoes
  have g' := hacted.grafts hother hfits.inverse
  refine ⟨above, undone, hacted, halike.root, fun {id before} hbefore => ?_⟩
  by_cases hgone : id ∈ revision.removed.flatMap fun child => (doc.subtree child).ids
  · -- the element went with the edit and comes back with the tree that it was in
    obtain ⟨child, hchild, hid⟩ := List.mem_flatMap.1 hgone
    obtain ⟨x, hx, rfl⟩ := List.mem_map.1 hid
    obtain ⟨node', hnode', hcontent⟩ := h.stored_removed hdoc hregular hchild x hx
    rw [hbefore] at hnode'
    cases hnode'
    have hback : doc.subtree child ∈ undone.added := by
      rw [hundoes.added]
      exact List.mem_map_of_mem hchild
    obtain ⟨after, hafter, hsame⟩ := g'.stored_added hback x hx
    exact ⟨after, hafter, hcontent ▸ hsame ▸ .refl _⟩
  · by_cases ht : edit.target = id
    · subst ht
      rw [h.found] at hbefore
      cases hbefore
      refine ⟨_, g'.find?_target hother, hundoes.content.mono (Or.imp_right ?_) (Or.imp_right ?_)⟩
      · exact fun hdelta => ⟨h.active, hdelta, rfl⟩
      · exact fun hprunes => ⟨h.active, hprunes, rfl⟩
    · -- any other element was not touched in either direction
      obtain ⟨parent, content⟩ := before
      obtain ⟨after, hafter, hsame⟩ := g.find?_of_stays hbefore hgone
      cases hsame ht
      obtain ⟨⟨parent', content'⟩, hnode', halike'⟩ := halike.content hafter
      have hstays : id ∉ undone.removed.flatMap fun child => (other.subtree child).ids := by
        rw [h.mem_detached_undone hdoc hregular hother halike hundoes.removed]
        exact g.not_added hbefore hgone
      obtain ⟨back, hback, hsame'⟩ := g'.find?_of_stays hnode' hstays
      cases hsame' ht
      exact ⟨_, hback, halike'.mono .inl .inl⟩

end Document
end CoEdit
