import CoEdit.Document.Apply
import CoEdit.Proofs.Document.Sound

/-!
# Editing contents

What a change does to a content is said here of the list of items, the text and the list of properties
alone, for children of any type (`Content.edit?`). No change looks into the children, so editing commutes
with mapping them (`edit?_map`). It exchanges the children that leave for those that the change brings
along (`exists_kept`), and what it makes of ids shows what the change makes of the view (`view_edit?`).
-/
namespace CoEdit

/-- The items after a change, if the index or length that it names fits. New items are put in as
`arrive` makes them. -/
def ArrayChange.applied? {α : Type} (arrive : Element → α) (items : List α) :
    ArrayChange → Option (List α)
  | .insert index value =>
      if index ≤ items.length then some (items.insertIdx index (arrive value)) else none
  | .remove index => if index < items.length then some (items.eraseIdx index) else none
  | .replace index value =>
      if index < items.length then some (items.set index (arrive value)) else none
  | .move source target =>
      if source < items.length ∧ target < items.length then
        some (Position.relocate source target items)
      else none
  | .reorder order =>
      if order.length = items.length then some (Reorder.permute order items) else none
  | .set values => some (values.map arrive)

/-- The properties after a change, if the name that it adds is absent or the one that it changes is
present. A new property goes to the end and a changed one stays where it is. -/
def ObjectChange.applied? {α : Type} (arrive : Element → α) (props : List (String × α)) :
    ObjectChange → Option (List (String × α))
  | .add prop value =>
      if prop ∈ Entries.keys props then none else some (props ++ [(prop, arrive value)])
  | .assign prop value =>
      if prop ∈ Entries.keys props then
        some (props.map fun p => if p.1 = prop then (prop, arrive value) else p)
      else none
  | .remove prop =>
      if prop ∈ Entries.keys props then some (props.filter fun p => p.1 ≠ prop) else none
  | .set values => some (values.map fun p => (p.1, arrive p.2))

namespace Content

variable {α β : Type}

/-- The content after a change, if the change is of its family and fits. -/
def edit? (arrive : Element → α) : Content α → Change → Option (Content α)
  | .array items, .array change => (change.applied? arrive items).map .array
  | .object props, .object change => (change.applied? arrive props).map .object
  | .string text, .string change => (change.edit? text).map .string
  | .number value, .number (.delta amount) => some (.number (value + amount))
  | .number _, .number (.set value) => some (.number value)
  | .boolean _, .booleanSet value => some (.boolean value)
  | .date _, .dateSet millis => some (.date millis)
  | _, _ => none

/-- The children that a change takes out, in order. -/
def leaving : Content α → Change → List α
  | .array items, .array (.remove index) => items[index]?.toList
  | .array items, .array (.replace index _) => items[index]?.toList
  | .array items, .array (.set _) => items
  | .object props, .object (.assign prop _) => (Entries.find? prop props).toList
  | .object props, .object (.remove prop) => (Entries.find? prop props).toList
  | .object props, .object (.set _) => Entries.values props
  | _, _ => []

theorem map_congr {f g : α → β} {content : Content α}
    (h : ∀ child ∈ content.children, f child = g child) : content.map f = content.map g := by
  cases content with
  | array items => exact congrArg Content.array (List.map_congr_left h)
  | object props =>
      refine congrArg Content.object (List.map_congr_left fun p hp => ?_)
      rw [h p.2 (List.mem_map_of_mem hp)]
  | _ => rfl

theorem map_map {γ : Type} (g : β → γ) (f : α → β) (content : Content α) :
    (content.map f).map g = content.map (g ∘ f) := by
  cases content <;> simp [map]

theorem map_id (content : Content α) : content.map (fun child => child) = content := by
  cases content <;> simp [map]

end Content

/-! ## Editing commutes with mapping the children -/

namespace Position

variable {α β : Type}

theorem relocate_map (f : α → β) (source target : Nat) (items : List α) :
    relocate source target (items.map f) = (relocate source target items).map f := by
  unfold relocate
  rw [List.getElem?_map]
  cases items[source]? with
  | none => rfl
  | some item => simp only [Option.map_some, List.eraseIdx_map, List.map_insertIdx]

end Position

theorem Reorder.permute_map {α β : Type} (f : α → β) (order : List Nat) (items : List α) :
    permute order (items.map f) = (permute order items).map f := by
  simp only [permute, List.getElem?_map, List.map_filterMap]

theorem Entries.keys_map {α β : Type} (f : α → β) (props : List (String × α)) :
    keys (props.map fun p => (p.1, f p.2)) = keys props := by
  simp [keys]

theorem Entries.values_map {α β : Type} (f : α → β) (props : List (String × α)) :
    values (props.map fun p => (p.1, f p.2)) = (values props).map f := by
  simp [values]

variable {α β : Type}

theorem ArrayChange.applied?_map (f : α → β) (arrive : Element → α) (items : List α)
    (change : ArrayChange) : change.applied? (f ∘ arrive) (items.map f) =
      (change.applied? arrive items).map (List.map f) := by
  cases change with
  | insert index value =>
      simp only [applied?, List.length_map]
      split_ifs <;> simp [List.map_insertIdx]
  | remove index =>
      simp only [applied?, List.length_map]
      split_ifs <;> simp [List.eraseIdx_map]
  | replace index value =>
      simp only [applied?, List.length_map]
      split_ifs <;> simp [List.map_set]
  | move source target =>
      simp only [applied?, List.length_map]
      split_ifs <;> simp [Position.relocate_map]
  | reorder order =>
      simp only [applied?, List.length_map]
      split_ifs <;> simp [Reorder.permute_map]
  | set values => simp [applied?]

theorem ObjectChange.applied?_map (f : α → β) (arrive : Element → α) (props : List (String × α))
    (change : ObjectChange) :
    change.applied? (f ∘ arrive) (props.map fun p => (p.1, f p.2)) =
      (change.applied? arrive props).map (List.map fun p => (p.1, f p.2)) := by
  cases change with
  | add prop value =>
      simp only [applied?, Entries.keys_map]
      split_ifs <;> simp
  | assign prop value =>
      simp only [applied?, Entries.keys_map]
      split_ifs
      · simp only [Option.map_some, List.map_map, Option.some.injEq]
        refine List.map_congr_left fun p _ => ?_
        simp only [Function.comp_apply]
        split_ifs <;> rfl
      · rfl
  | remove prop =>
      simp only [applied?, Entries.keys_map]
      split_ifs
      · simp only [Option.map_some, List.filter_map]
        rfl
      · rfl
  | set values => simp [applied?]

namespace Content

theorem edit?_map (f : α → β) (arrive : Element → α) (content : Content α) (change : Change) :
    (content.map f).edit? (f ∘ arrive) change = (content.edit? arrive change).map (map f) := by
  cases content with
  | array items =>
      cases change with
      | array c =>
          simp only [map, edit?]
          rw [c.applied?_map, Option.map_map, Option.map_map]
          rfl
      | _ => rfl
  | object props =>
      cases change with
      | object c =>
          simp only [map, edit?]
          rw [c.applied?_map, Option.map_map, Option.map_map]
          rfl
      | _ => rfl
  | string text =>
      cases change with
      | string c => simp [map, edit?, Option.map_map, Function.comp_def]
      | _ => rfl
  | number value =>
      cases change with
      | number c => cases c <;> rfl
      | _ => rfl
  | boolean value => cases change <;> rfl
  | date millis => cases change <;> rfl
  | null => cases change <;> rfl

theorem edit?_map_id (content : Content Element) (change : Change) :
    (content.map Element.id).edit? Element.id change =
      (content.edit? (fun value => value) change).map (map Element.id) :=
  edit?_map Element.id (fun value => value) content change

theorem leaving_map (f : α → β) (content : Content α) (change : Change) :
    (content.map f).leaving change = (content.leaving change).map f := by
  cases content with
  | array items =>
      cases change with
      | array c =>
          cases c with
          | remove index => cases h : items[index]? <;> simp [map, leaving, h]
          | replace index value => cases h : items[index]? <;> simp [map, leaving, h]
          | _ => rfl
      | _ => rfl
  | object props =>
      cases change with
      | object c =>
          cases c with
          | assign prop value =>
              cases h : Entries.find? prop props <;> simp [map, leaving, Entries.find?_map, h]
          | remove prop =>
              cases h : Entries.find? prop props <;> simp [map, leaving, Entries.find?_map, h]
          | set values => exact Entries.values_map f props
          | _ => rfl
      | _ => rfl
  | _ => cases change <;> rfl

end Content

/-! ## What goes, what stays and what comes -/

namespace Entries

variable {prop : String} {value : α} {props : List (String × α)}

theorem put_of_not_mem (h : prop ∉ keys props) : put prop value props = props ++ [(prop, value)] := by
  induction props with
  | nil => rfl
  | cons p rest ih =>
      rcases p with ⟨name, other⟩
      rw [keys, List.map_cons, List.mem_cons, not_or] at h
      rw [put, if_neg (Ne.symm h.1), ih h.2, List.cons_append]

theorem putAll_of_distinct {added entries : List (String × α)} (h : Distinct (entries ++ added)) :
    putAll added entries = entries ++ added := by
  induction added generalizing entries with
  | nil => exact (List.append_nil entries).symm
  | cons e rest ih =>
      have hnew : e.1 ∉ keys entries := by
        rw [Distinct, keys, List.map_append, List.map_cons, List.nodup_append] at h
        exact fun hmem => h.2.2 e.1 hmem e.1 List.mem_cons_self rfl
      have hstep : putAll (e :: rest) entries = putAll rest (put e.1 e.2 entries) := rfl
      rw [List.append_cons] at h ⊢
      rw [hstep, put_of_not_mem hnew]
      exact ih h

theorem put_of_mem (hdistinct : Distinct props) (h : prop ∈ keys props) :
    put prop value props = props.map fun p => if p.1 = prop then (prop, value) else p := by
  induction props with
  | nil => cases h
  | cons p rest ih =>
      rcases p with ⟨name, other⟩
      obtain ⟨hname, hrest⟩ := List.nodup_cons.1 hdistinct
      rw [put, List.map_cons]
      by_cases heq : name = prop
      · subst heq
        rw [if_pos rfl, if_pos rfl]
        congr 1
        conv_lhs => rw [← List.map_id rest]
        refine List.map_congr_left fun p hp => ?_
        rw [if_neg fun h : p.1 = name => hname (List.mem_map.2 ⟨p, hp, h⟩)]
        rfl
      · rw [if_neg heq, if_neg heq, ih hrest ((List.mem_cons.1 h).resolve_left (Ne.symm heq))]

theorem contains_iff_mem_keys : contains prop props = true ↔ prop ∈ keys props := by
  rw [contains, Option.isSome_iff_ne_none, ne_eq, find?_eq_none_iff, not_not]

theorem exists_find?_of_mem_keys (h : prop ∈ keys props) :
    ∃ child, find? prop props = some child := by
  rw [← Option.ne_none_iff_exists']
  exact fun hnone => (find?_eq_none_iff prop props).1 hnone h

theorem distinct_erase (prop : String) (h : Distinct props) : Distinct (erase prop props) :=
  h.sublist (List.filter_sublist.map Prod.fst)

theorem erase_of_not_mem (h : prop ∉ keys props) : erase prop props = props := by
  rw [erase, List.filter_eq_self]
  intro e he
  have hne : e.1 ≠ prop := fun heq => h (heq ▸ List.mem_map_of_mem he)
  simpa using hne

theorem perm_erase {child : α} (hdistinct : Distinct props) (h : find? prop props = some child) :
    props.Perm ((prop, child) :: erase prop props) := by
  induction props with
  | nil => cases h
  | cons p rest ih =>
      rcases p with ⟨name, other⟩
      obtain ⟨hname', hrest⟩ := List.nodup_cons.1 hdistinct
      rw [find?_cons] at h
      by_cases hname : name = prop
      · subst hname
        rw [if_pos rfl] at h
        cases h
        rw [erase, List.filter_cons_of_neg (by simp), ← erase, erase_of_not_mem hname']
      · rw [if_neg hname] at h
        rw [erase, List.filter_cons_of_pos (by simpa using hname), ← erase]
        exact ((ih hrest h).cons _).trans (.swap _ _ _)

theorem exists_values_put {child : α} (h : find? prop props = some child) :
    ∃ kept, (values props).Perm (child :: kept) ∧
      (values (put prop value props)).Perm (kept ++ [value]) := by
  induction props with
  | nil => cases h
  | cons p rest ih =>
      rcases p with ⟨name, other⟩
      rw [find?_cons] at h
      split_ifs at h with hname
      · cases h
        rw [put, if_pos hname]
        exact ⟨values rest, .refl _, (List.perm_append_singleton value (values rest)).symm⟩
      · obtain ⟨kept, hbefore, hafter⟩ := ih h
        rw [put, if_neg hname]
        exact ⟨other :: kept, (hbefore.cons _).trans (.swap _ _ kept), hafter.cons _⟩

end Entries

theorem ArrayChange.exists_kept {arrive : Element → α} {items after : List α}
    {change : ArrayChange} (hlawful : change.Lawful) (h : change.applied? arrive items = some after) :
    ∃ kept, items.Perm ((Content.array items).leaving (.array change) ++ kept) ∧
      after.Perm (kept ++ change.payload.map arrive) := by
  cases change with
  | insert index value =>
      obtain ⟨hindex, hafter⟩ := Option.ite_none_right_eq_some.1 h
      cases hafter
      exact ⟨items, .refl _, (List.perm_insertIdx _ _ hindex).trans
        (List.perm_append_singleton _ _).symm⟩
  | remove index =>
      obtain ⟨hindex, hafter⟩ := Option.ite_none_right_eq_some.1 h
      cases hafter
      refine ⟨items.eraseIdx index, ?_, ?_⟩
      · rw [Content.leaving, List.getElem?_eq_getElem hindex]
        exact (List.getElem_cons_eraseIdx_perm hindex).symm
      · exact .of_eq (List.append_nil _).symm
  | replace index value =>
      obtain ⟨hindex, hafter⟩ := Option.ite_none_right_eq_some.1 h
      cases hafter
      refine ⟨items.eraseIdx index, ?_, ?_⟩
      · rw [Content.leaving, List.getElem?_eq_getElem hindex]
        exact (List.getElem_cons_eraseIdx_perm hindex).symm
      · exact (List.set_perm_cons_eraseIdx hindex _).trans (List.perm_append_singleton _ _).symm
  | move source target =>
      obtain ⟨⟨hsource, htarget⟩, hafter⟩ := Option.ite_none_right_eq_some.1 h
      cases hafter
      exact ⟨items, .refl _,
        (Position.relocate_perm hsource htarget).trans (.of_eq (List.append_nil _).symm)⟩
  | reorder order =>
      obtain ⟨hlen, hafter⟩ := Option.ite_none_right_eq_some.1 h
      cases hafter
      exact ⟨items, .refl _,
        (Reorder.permute_perm hlawful hlen).trans (.of_eq (List.append_nil _).symm)⟩
  | set values =>
      cases h
      exact ⟨[], .of_eq (List.append_nil _).symm, .refl _⟩

theorem ObjectChange.exists_kept {arrive : Element → α} {props after : List (String × α)}
    {change : ObjectChange} (hdistinct : Entries.Distinct props)
    (h : change.applied? arrive props = some after) :
    ∃ kept, (Entries.values props).Perm ((Content.object props).leaving (.object change) ++ kept) ∧
      (Entries.values after).Perm (kept ++ change.payload.map arrive) := by
  cases change with
  | add prop value =>
      obtain ⟨-, hafter⟩ := Option.ite_none_left_eq_some.1 h
      cases hafter
      refine ⟨Entries.values props, .refl _, ?_⟩
      rw [Entries.values, List.map_append]
      exact .refl _
  | assign prop value =>
      obtain ⟨hprop, hafter⟩ := Option.ite_none_right_eq_some.1 h
      cases hafter
      obtain ⟨child, hchild⟩ := Entries.exists_find?_of_mem_keys hprop
      rw [← Entries.put_of_mem hdistinct hprop, Content.leaving, hchild]
      exact Entries.exists_values_put hchild
  | remove prop =>
      obtain ⟨hprop, hafter⟩ := Option.ite_none_right_eq_some.1 h
      cases hafter
      obtain ⟨child, hchild⟩ := Entries.exists_find?_of_mem_keys hprop
      rw [Content.leaving, hchild]
      exact ⟨Entries.values (Entries.erase prop props),
        (Entries.perm_erase hdistinct hchild).map Prod.snd, .of_eq (List.append_nil _).symm⟩
  | set values =>
      cases h
      exact ⟨[], .of_eq (List.append_nil _).symm, .of_eq (Entries.values_map arrive values)⟩

/-- The children after a change are those before without the ones that leave and with the ones that the
change brings along. -/
theorem Content.exists_kept {arrive : Element → α} {content after : Content α} {change : Change}
    (hkeyed : content.Keyed) (hlawful : change.Lawful)
    (h : content.edit? arrive change = some after) :
    ∃ kept, content.children.Perm (content.leaving change ++ kept) ∧
      after.children.Perm (kept ++ change.payload.map arrive) := by
  cases content with
  | array items =>
      cases change with
      | array c =>
          obtain ⟨items', hitems, rfl⟩ := Option.map_eq_some_iff.1 h
          exact ArrayChange.exists_kept hlawful hitems
      | _ => cases h
  | object props =>
      cases change with
      | object c =>
          obtain ⟨props', hprops, rfl⟩ := Option.map_eq_some_iff.1 h
          exact ObjectChange.exists_kept hkeyed hprops
      | _ => cases h
  | string text =>
      cases change with
      | string c =>
          obtain ⟨text', -, rfl⟩ := Option.map_eq_some_iff.1 h
          exact ⟨[], .refl _, .refl _⟩
      | _ => cases h
  | number value =>
      cases change with
      | number c => cases c <;> cases h <;> exact ⟨[], .refl _, .refl _⟩
      | _ => cases h
  | boolean value =>
      cases change with
      | booleanSet next =>
          cases h
          exact ⟨[], .refl _, .refl _⟩
      | _ => cases h
  | date millis =>
      cases change with
      | dateSet next =>
          cases h
          exact ⟨[], .refl _, .refl _⟩
      | _ => cases h
  | null => cases change <;> cases h

theorem ObjectChange.distinct_applied? {arrive : Element → α} {props after : List (String × α)}
    {change : ObjectChange} (hdistinct : Entries.Distinct props) (hlawful : change.Lawful)
    (h : change.applied? arrive props = some after) : Entries.Distinct after := by
  cases change with
  | add prop value =>
      obtain ⟨hprop, hafter⟩ := Option.ite_none_left_eq_some.1 h
      cases hafter
      rw [← Entries.put_of_not_mem hprop]
      exact Entries.distinct_put hdistinct prop _
  | assign prop value =>
      obtain ⟨hprop, hafter⟩ := Option.ite_none_right_eq_some.1 h
      cases hafter
      rw [← Entries.put_of_mem hdistinct hprop]
      exact Entries.distinct_put hdistinct prop _
  | remove prop =>
      obtain ⟨-, hafter⟩ := Option.ite_none_right_eq_some.1 h
      cases hafter
      exact Entries.distinct_erase prop hdistinct
  | set values =>
      cases h
      rw [Entries.Distinct, Entries.keys_map]
      exact hlawful

/-- No change makes an object repeat a name. -/
theorem Content.keyed_edit? {arrive : Element → α} {content after : Content α} {change : Change}
    (hkeyed : content.Keyed) (hlawful : change.Lawful)
    (h : content.edit? arrive change = some after) : after.Keyed := by
  cases content with
  | array items =>
      cases change with
      | array c =>
          obtain ⟨items', -, rfl⟩ := Option.map_eq_some_iff.1 h
          trivial
      | _ => cases h
  | object props =>
      cases change with
      | object c =>
          obtain ⟨props', hprops, rfl⟩ := Option.map_eq_some_iff.1 h
          exact ObjectChange.distinct_applied? hkeyed hlawful hprops
      | _ => cases h
  | string text =>
      cases change with
      | string c =>
          obtain ⟨text', -, rfl⟩ := Option.map_eq_some_iff.1 h
          trivial
      | _ => cases h
  | number value =>
      cases change with
      | number c => cases c <;> cases h <;> trivial
      | _ => cases h
  | boolean value =>
      cases change with
      | booleanSet next =>
          cases h
          trivial
      | _ => cases h
  | date millis =>
      cases change with
      | dateSet next =>
          cases h
          trivial
      | _ => cases h
  | null => cases change <;> cases h

/-! ## What the outcome shows -/

theorem ArrayChange.applied?_id (items : List ElementId) (change : ArrayChange) :
    change.applied? Element.id items = change.edit? items := by
  cases change <;> rfl

theorem ObjectChange.find?_applied? {props : List (String × ElementId)}
    (hdistinct : Entries.Distinct props) (change : ObjectChange) :
    (change.applied? Element.id props).map (fun after name => Entries.find? name after) =
      change.edit? fun name => Entries.find? name props := by
  have hput (prop : String) (value : ElementId) :
      (fun name => Entries.find? name (Entries.put prop value props)) =
        Function.update (fun name => Entries.find? name props) prop (some value) := by
    funext name
    rw [Entries.find?_put, Function.update_apply]
    simp only [eq_comm]
  cases change with
  | add prop value =>
      by_cases hprop : prop ∈ Entries.keys props
      · obtain ⟨child, hchild⟩ := Entries.exists_find?_of_mem_keys hprop
        simp [applied?, edit?, hprop, hchild]
      · rw [applied?, if_neg hprop, ← Entries.put_of_not_mem hprop, Option.map_some, hput]
        simp [edit?, (Entries.find?_eq_none_iff prop props).2 hprop]
  | assign prop value =>
      by_cases hprop : prop ∈ Entries.keys props
      · obtain ⟨child, hchild⟩ := Entries.exists_find?_of_mem_keys hprop
        rw [applied?, if_pos hprop, ← Entries.put_of_mem hdistinct hprop, Option.map_some, hput]
        simp [edit?, hchild]
      · simp [applied?, edit?, hprop, (Entries.find?_eq_none_iff prop props).2 hprop]
  | remove prop =>
      by_cases hprop : prop ∈ Entries.keys props
      · obtain ⟨child, hchild⟩ := Entries.exists_find?_of_mem_keys hprop
        rw [applied?, if_pos hprop, ← Entries.erase, Option.map_some]
        simp only [edit?, hchild, Option.isSome_some, if_true, Option.some.injEq]
        funext name
        rw [Entries.find?_erase, Function.update_apply]
        simp only [eq_comm]
      · simp [applied?, edit?, hprop, (Entries.find?_eq_none_iff prop props).2 hprop]
  | set values =>
      rw [applied?, Option.map_some, edit?]
      exact congrArg some (funext fun name => Entries.find?_map Element.id name values)

/-- Editing ids shows what editing the view makes of it. -/
theorem Content.view_edit? {content : Content ElementId} (hkeyed : content.Keyed)
    (change : Change) :
    (content.edit? Element.id change).map view = content.view.edit? change := by
  cases content with
  | array items =>
      cases change with
      | array c =>
          rw [edit?, Option.map_map, c.applied?_id]
          rfl
      | _ => rfl
  | object props =>
      cases change with
      | object c =>
          rw [edit?, view, View.edit?, Option.map_map, ← ObjectChange.find?_applied? hkeyed c,
            Option.map_map]
          rfl
      | _ => rfl
  | string text =>
      cases change with
      | string c =>
          rw [edit?, Option.map_map]
          rfl
      | _ => rfl
  | number value =>
      cases change with
      | number c =>
          cases c with
          | delta amount =>
              exact congrArg (fun m => some (View.number m)) (Number.magnitude_add value amount)
          | set next => rfl
      | _ => rfl
  | boolean value => cases change <;> rfl
  | date millis => cases change <;> rfl
  | null => cases change <;> rfl

end CoEdit
