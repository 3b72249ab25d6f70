import CoEdit.Proofs.Merge.Meeting

/-!
# Elements placed on both sides

An insertion and a move place one element each. Where the two elements stand to each other in the merged
array is decided by the gaps that they were given in the array without both: the one of the smaller gap goes
in front, and in one gap that of the first side does (`Reachable.array_arranges`). There is one exception,
for one rule serves both orders of an insertion and a move: it puts the inserted element in front, also where
the move comes first (`leads`).
-/
namespace CoEdit

namespace Position

variable {α : Type} {items : List α} {p q : α} {gap : Nat}

theorem insertIdx_eq_append (item : α) (h : gap ≤ items.length) :
    items.insertIdx gap item = items.take gap ++ item :: items.drop gap := by
  induction items generalizing gap with
  | nil =>
      rw [Nat.le_zero.1 h]
      rfl
  | cons first rest ih =>
      cases gap with
      | zero => rfl
      | succ gap => rw [List.insertIdx_succ_cons, ih (Nat.le_of_succ_le_succ h)]; rfl

theorem sublist_insertIdx_of_lt {k : Nat} (hp : items[k]? = some p) (hlt : k < gap)
    (h : gap ≤ items.length) : [p, q].Sublist (items.insertIdx gap q) := by
  rw [insertIdx_eq_append q h]
  have hmem : p ∈ items.take gap := List.mem_of_getElem? (i := k) <| by
    rw [List.getElem?_take_of_lt hlt, hp]
  exact (List.singleton_sublist.2 hmem).append (List.singleton_sublist.2 List.mem_cons_self)

theorem sublist_insertIdx_of_le {k : Nat} (hp : items[k]? = some p) (hle : gap ≤ k)
    (h : gap ≤ items.length) : [q, p].Sublist (items.insertIdx gap q) := by
  rw [insertIdx_eq_append q h]
  have hmem : p ∈ items.drop gap := List.mem_of_getElem? (i := k - gap) <| by
    rw [List.getElem?_drop, Nat.add_sub_cancel' hle, hp]
  exact (List.nil_sublist _).append ((List.singleton_sublist.2 hmem).cons_cons q)

end Position

namespace ArrayChange
open Position

/-- The element that an insertion or a move places. -/
def placed? (items : List ElementId) : ArrayChange → Option ElementId
  | .insert _ value => some value.id
  | .move source _ => items[source]?
  | _ => none

/-- The gap in which an element stands, in the array without another one. -/
def gapWithout (other : ElementId) (ids : List ElementId) (placed : ElementId) : Nat :=
  (ids.erase other).idxOf placed

/-- Whether the first side's element goes in front where both are placed in one gap. -/
def leads : ArrayChange → ArrayChange → Bool
  | .move .., .insert .. => false
  | _, _ => true

/-- The elements `p` and `q`, which two sides placed on their own in the arrays `first` and `second`, stand
in the merged array in the order of their gaps. If the gaps are equal, `front` tells whether `p` goes in
front. -/
def Arranged (front : Bool) (p q : ElementId) (first second merged : List ElementId) : Prop :=
  if gapWithout q first p < gapWithout p second q ∨
      gapWithout q first p = gapWithout p second q ∧ front then [p, q].Sublist merged
  else [q, p].Sublist merged

variable {items rest first second merged : List ElementId} {p q : ElementId}

theorem gapWithout_eq {gap : Nat} (hp : p ∉ rest) (hgap : gap ≤ rest.length)
    (h : first.erase q = rest.insertIdx gap p) : gapWithout q first p = gap := by
  rw [gapWithout, h, insertIdx_eq_append p hgap,
    List.idxOf_append_of_notMem fun hmem => hp (List.mem_of_mem_take hmem), List.idxOf_cons_self,
    List.length_take_of_le hgap, Nat.add_zero]

theorem arranged_insertIdx (front : Bool) {gap other : Nat} (hp : p ∉ rest) (hq : q ∉ rest)
    (hgap : gap ≤ rest.length) (hother : other ≤ rest.length)
    (hfirst : first.erase q = rest.insertIdx gap p) (hsecond : second.erase p = rest.insertIdx other q) :
    Arranged front p q first second ((rest.insertIdx gap p).insertIdx
      (if gap < other ∨ gap = other ∧ front then other + 1 else other) q) := by
  have hitem : (rest.insertIdx gap p)[gap]? = some p := by
    rw [List.getElem?_insertIdx_self, if_pos hgap]
  have hlen : (rest.insertIdx gap p).length = rest.length + 1 := by
    rw [List.length_insertIdx, if_pos hgap]
  rw [Arranged, gapWithout_eq hp hgap hfirst, gapWithout_eq hq hother hsecond]
  split_ifs with h
  · exact sublist_insertIdx_of_lt hitem (by omega) (by omega)
  · exact sublist_insertIdx_of_le hitem (by omega) (by omega)

/-! ## The four pairs -/

theorem erase_of_getElem? {k : Nat} (hnodup : items.Nodup) (h : items[k]? = some q) :
    items.erase q = items.eraseIdx k := by
  obtain ⟨hlt, rfl⟩ := List.getElem?_eq_some_iff.1 h
  exact hnodup.erase_getElem k hlt

/-- What is left of the second side, behind the first one, puts the elements where their gaps are. -/
def Arranges (items : List ElementId) (c d : ArrayChange) (p q : ElementId) : Prop :=
  ∀ outcome outcome' first second merged, c.transform d = .ok (outcome, outcome') →
    edit? items c = some first → edit? items d = some second →
    outcome'.follow edit? first = some merged → Arranged (c.leads d) p q first second merged

theorem arranges_insert_insert {i j : Nat} {v w : Element} (hv : v.id ∉ items) (hw : w.id ∉ items)
    (hne : v.id ≠ w.id) : Arranges items (.insert i v) (.insert j w) v.id w.id := by
  intro outcome outcome' first second merged hrule hfirst hsecond hmerged
  obtain ⟨hi, rfl⟩ := Option.ite_some_none_eq_some.1 hfirst
  obtain ⟨hj, rfl⟩ := Option.ite_some_none_eq_some.1 hsecond
  have herase : (items.insertIdx i v.id).erase w.id = items.insertIdx i v.id :=
    List.erase_of_not_mem fun hmem => by
      rcases (List.mem_insertIdx hi).1 hmem with h | h
      · exact hne h.symm
      · exact hw h
  have herase' : (items.insertIdx j w.id).erase v.id = items.insertIdx j w.id :=
    List.erase_of_not_mem fun hmem => by
      rcases (List.mem_insertIdx hj).1 hmem with h | h
      · exact hne h
      · exact hv h
  have harranged := arranged_insertIdx true hv hw hi hj herase herase'
  have hlen : (items.insertIdx i v.id).length = items.length + 1 := length_insertIdx_of_le hi
  simp only [transform] at hrule
  split_ifs at hrule with h
  · cases hrule
    rw [Outcome.follow, edit?_insert (by omega)] at hmerged
    cases hmerged
    rwa [if_pos (by simp; omega)] at harranged
  · cases hrule
    rw [Outcome.follow, edit?_insert (by omega)] at hmerged
    cases hmerged
    rwa [if_neg (by simp; omega)] at harranged

theorem erase_insertIdx {i source : Nat} {item moved : ElementId} (hnodup : items.Nodup)
    (hitem : item ∉ items) (hi : i ≤ items.length) (hmoved : items[source]? = some moved) :
    (items.insertIdx i item).erase moved =
      (items.eraseIdx source).insertIdx (afterRemove source 1 i) item := by
  obtain ⟨hsource, -⟩ := List.getElem?_eq_some_iff.1 hmoved
  have hnodup' : (items.insertIdx i item).Nodup :=
    (List.perm_insertIdx item _ hi).nodup_iff.2 (List.nodup_cons.2 ⟨hitem, hnodup⟩)
  have hfound : (items.insertIdx i item)[afterInsert i 1 source]? = some moved := by
    rw [List.getElem?_insertIdx, ← hmoved]
    unfold afterInsert
    split_ifs <;> first | rfl | omega
  rw [erase_of_getElem? hnodup' hfound, eraseIdx_insertIdx i item hsource]

theorem erase_relocate {source target : Nat} {item moved : ElementId} (hitem : item ∉ items)
    (hmoved : items[source]? = some moved) (ht : target < items.length) :
    (relocate source target items).erase item = (items.eraseIdx source).insertIdx target moved := by
  obtain ⟨hsource, -⟩ := List.getElem?_eq_some_iff.1 hmoved
  rw [List.erase_of_not_mem fun hmem => hitem ((relocate_perm hsource ht).mem_iff.1 hmem),
    relocate_eq hmoved]

theorem not_mem_eraseIdx {k : Nat} (hnodup : items.Nodup) (h : items[k]? = some q) :
    q ∉ items.eraseIdx k := by
  rw [← erase_of_getElem? hnodup h]
  exact fun hmem => (hnodup.mem_erase_iff.1 hmem).1 rfl

theorem transform_insert_move (i source target : Nat) (v : Element) :
    transform (.insert i v) (.move source target) =
      .ok (.becomes (.insert (insertMove i source target).1 v),
        .becomes (.move (insertMove i source target).2.1 (insertMove i source target).2.2)) := rfl

theorem transform_move_insert (i source target : Nat) (v : Element) :
    transform (.move source target) (.insert i v) =
      .ok (.becomes (.move (insertMove i source target).2.1 (insertMove i source target).2.2),
        .becomes (.insert (insertMove i source target).1 v)) := rfl

theorem insertMove_index (i source target : Nat) : (insertMove i source target).1 =
    if afterRemove source 1 i ≤ target then afterRemove source 1 i
    else afterRemove source 1 i + 1 := by
  simp only [insertMove, insertGap_eq]
  split_ifs <;> rfl

theorem arranges_insert_move {i source target : Nat} {v : Element} (hnodup : items.Nodup)
    (hv : v.id ∉ items) (hq : items[source]? = some q) :
    Arranges items (.insert i v) (.move source target) v.id q := by
  intro outcome outcome' first second merged hrule hfirst hsecond hmerged
  obtain ⟨hi, rfl⟩ := Option.ite_some_none_eq_some.1 hfirst
  obtain ⟨⟨hs, ht⟩, rfl⟩ := Option.ite_some_none_eq_some.1 hsecond
  have hrest := length_eraseIdx_of_lt hs
  have hgap : afterRemove source 1 i ≤ (items.eraseIdx source).length := by
    unfold afterRemove
    split_ifs <;> omega
  have harranged := arranged_insertIdx true
    (fun hmem => hv (List.mem_of_mem_eraseIdx hmem)) (not_mem_eraseIdx hnodup hq) hgap (by omega)
    (erase_insertIdx hnodup hv hi hq) (erase_relocate hv hq ht)
  rw [transform_insert_move] at hrule
  cases hrule
  obtain ⟨-, hmerged⟩ := Option.ite_none_right_eq_some.1 hmerged
  rw [relocate_insertIdx v.id hi hs ht, relocate_eq hq, insertMove_index] at hmerged
  cases hmerged
  generalize afterRemove source 1 i = gap at hgap harranged ⊢
  split_ifs with h
  · rwa [if_pos (by simp; omega), List.insertIdx_comm _ _ h (by omega)] at harranged
  · rwa [if_neg (by simp; omega), ← List.insertIdx_comm _ _ (by omega) hgap] at harranged

/-- Here the second side goes in front where the gaps are equal. -/
theorem arranges_move_insert {i source target : Nat} {w : Element} (hnodup : items.Nodup)
    (hw : w.id ∉ items) (hp : items[source]? = some p) :
    Arranges items (.move source target) (.insert i w) p w.id := by
  intro outcome outcome' first second merged hrule hfirst hsecond hmerged
  obtain ⟨⟨hs, ht⟩, rfl⟩ := Option.ite_some_none_eq_some.1 hfirst
  obtain ⟨hi, rfl⟩ := Option.ite_some_none_eq_some.1 hsecond
  have hrest := length_eraseIdx_of_lt hs
  have hgap : afterRemove source 1 i ≤ (items.eraseIdx source).length := by
    unfold afterRemove
    split_ifs <;> omega
  have harranged := arranged_insertIdx false (not_mem_eraseIdx hnodup hp)
    (fun hmem => hw (List.mem_of_mem_eraseIdx hmem)) (by omega) hgap (erase_relocate hw hp ht)
    (erase_insertIdx hnodup hw hi hp)
  rw [transform_move_insert] at hrule
  cases hrule
  obtain ⟨-, hmerged⟩ := Option.ite_none_right_eq_some.1 hmerged
  rw [insertMove_index] at hmerged
  cases hmerged
  rw [← relocate_eq hp] at harranged
  generalize afterRemove source 1 i = gap at harranged ⊢
  split_ifs with h
  · rwa [if_neg (by simp; omega)] at harranged
  · rwa [if_pos (by simp; omega)] at harranged

theorem erase_relocate_of_ne {source target other : Nat} (hnodup : items.Nodup)
    (hp : items[source]? = some p) (hq : items[other]? = some q) (ht : target < items.length)
    (hne : source ≠ other) : (relocate source target items).erase q =
      ((items.eraseIdx source).eraseIdx (afterRemove source 1 other)).insertIdx
        (moveGap target source other) p := by
  obtain ⟨hs, -⟩ := List.getElem?_eq_some_iff.1 hp
  obtain ⟨ho, -⟩ := List.getElem?_eq_some_iff.1 hq
  have hfound := getElem?_relocate (p := other) hs ht
  rw [hq] at hfound
  rw [erase_of_getElem? ((relocate_perm hs ht).nodup_iff.2 hnodup) hfound,
    eraseIdx_relocate hp ho hne.symm, moveGap_eq target hne]

theorem transform_move_move {source₁ source₂ : Nat} (target₁ target₂ : Nat)
    (hne : source₁ ≠ source₂) :
    transform (.move source₁ target₁) (.move source₂ target₂) =
      .ok (.becomes (.move (moveMove source₁ target₁ source₂ target₂).1.1
          (moveMove source₁ target₁ source₂ target₂).1.2),
        .becomes (.move (moveMove source₁ target₁ source₂ target₂).2.1
          (moveMove source₁ target₁ source₂ target₂).2.2)) := if_neg hne

theorem moveMove_target (source₁ target₁ source₂ target₂ : Nat) :
    (moveMove source₁ target₁ source₂ target₂).2.2 =
      if moveGap target₁ source₁ source₂ ≤ moveGap target₂ source₂ source₁ then
        moveGap target₂ source₂ source₁ + 1
      else moveGap target₂ source₂ source₁ := by
  simp only [moveMove]
  split_ifs <;> rfl

theorem moveGap_le {source target other : Nat} (hs : source < items.length)
    (ht : target < items.length) (ho : other < items.length) (hne : source ≠ other) :
    moveGap target source other ≤
      ((items.eraseIdx source).eraseIdx (afterRemove source 1 other)).length := by
  have hlt : afterRemove source 1 other < items.length - 1 := by
    unfold afterRemove
    split_ifs <;> omega
  rw [List.length_eraseIdx, length_eraseIdx_of_lt hs, if_pos hlt]
  unfold moveGap
  dsimp only
  split_ifs <;> omega

theorem arranges_move_move {source₁ target₁ source₂ target₂ : Nat} (hnodup : items.Nodup)
    (hp : items[source₁]? = some p) (hq : items[source₂]? = some q) (hne : source₁ ≠ source₂) :
    Arranges items (.move source₁ target₁) (.move source₂ target₂) p q := by
  intro outcome outcome' first second merged hrule hfirst hsecond hmerged
  obtain ⟨⟨hs₁, ht₁⟩, rfl⟩ := Option.ite_some_none_eq_some.1 hfirst
  obtain ⟨⟨hs₂, ht₂⟩, rfl⟩ := Option.ite_some_none_eq_some.1 hsecond
  have herase := erase_relocate_of_ne hnodup hp hq ht₁ hne
  have herase' := erase_relocate_of_ne hnodup hq hp ht₂ hne.symm
  have hgap := moveGap_le hs₁ ht₁ hs₂ hne
  have hgap' := moveGap_le hs₂ ht₂ hs₁ hne.symm
  have hq' := not_mem_eraseIdx hnodup hq
  rw [eraseIdx_eraseIdx items source₂ source₁] at herase' hgap'
  have harranged := arranged_insertIdx true
    (fun hmem => not_mem_eraseIdx hnodup hp (List.mem_of_mem_eraseIdx hmem))
    (fun hmem => hq' (List.mem_of_mem_eraseIdx (eraseIdx_eraseIdx items source₁ source₂ ▸ hmem)))
    hgap hgap' herase herase'
  rw [transform_move_move target₁ target₂ hne] at hrule
  cases hrule
  obtain ⟨-, hmerged⟩ := Option.ite_none_right_eq_some.1 hmerged
  have hfound := getElem?_relocate (p := source₂) hs₁ ht₁
  rw [hq] at hfound
  rw [show (moveMove source₁ target₁ source₂ target₂).2.1 = afterMove source₁ target₁ source₂ from rfl,
    relocate_eq hfound,
    ← erase_of_getElem? ((relocate_perm hs₁ ht₁).nodup_iff.2 hnodup) hfound, herase,
    moveMove_target] at hmerged
  cases hmerged
  split_ifs with h
  · rwa [if_pos (by simp; omega)] at harranged
  · rwa [if_neg (by simp; omega)] at harranged

/-- Whichever two elements are placed, each by an insertion or a move, they come to stand in the order of
their gaps. -/
theorem arranges_of_placed? {c d : ArrayChange} (hnodup : items.Nodup)
    (hc : ∀ v ∈ c.payload, v.id ∉ items) (hd : ∀ w ∈ d.payload, w.id ∉ items)
    (hp : c.placed? items = some p) (hq : d.placed? items = some q) (hne : p ≠ q) :
    Arranges items c d p q := by
  cases c with
  | insert i v =>
      cases hp
      have hv := hc v (by simp [payload])
      cases d with
      | insert j w =>
          cases hq
          exact arranges_insert_insert hv (hd w (by simp [payload])) hne
      | move source target => exact arranges_insert_move hnodup hv hq
      | _ => cases hq
  | move source target =>
      cases d with
      | insert j w =>
          cases hq
          exact arranges_move_insert hnodup (hd w (by simp [payload])) hp
      | move source' target' =>
          refine arranges_move_move hnodup hp hq ?_
          rintro rfl
          exact hne (Option.some.inj (hp.symm.trans hq))
      | _ => cases hq
  | _ => cases hp

/-! ## In a document -/

theorem edit?_ids {items after : List Element} {c : ArrayChange}
    (h : c.applied? (fun value => value) items = some after) :
    edit? (items.map Element.id) c = some (after.map Element.id) := by
  rw [← c.applied?_id]
  exact (c.applied?_map Element.id (fun value => value) items).trans (by rw [h]; rfl)

theorem follow_ids {items after : List Element} {outcome : Outcome ArrayChange}
    (h : outcome.follow (applied? fun value => value) items = some after) :
    outcome.follow edit? (items.map Element.id) = some (after.map Element.id) := by
  cases outcome with
  | becomes change => exact edit?_ids h
  | dropped =>
      cases h
      rfl

end ArrayChange

namespace Document
open ArrayChange

variable {doc first second : Document} {a b : Edit} {c d : ArrayChange} {items : List Element}
  {p q : ElementId}

theorem Meeting.ids_eq (m : Meeting Facet.array doc a b c d first second items) (hc : c.Lawful)
    (hd : d.Lawful) : m.merged'.map Element.id = m.merged.map Element.id := by
  obtain ⟨outcome, outcome', joined, hjoins, hleft, hright⟩ :=
    joins_transform hc hd (edit?_ids m.edit) (edit?_ids m.edit')
  have hrule := m.rule.symm.trans hjoins
  cases hrule
  rw [follow_ids m.follow] at hleft
  rw [follow_ids m.follow', ← hleft] at hright
  exact Option.some.inj hright

/-- Two edits that place different elements of one array can be reconciled, and in either order the two
elements come to stand in the order of their gaps. In one gap the first side's element goes in front, unless
that side moves and the other one inserts. -/
theorem Reachable.array_arranges (hdoc : doc.Reachable) (h : doc.Meet a b first second)
    (ha : a.change = .array c) (hb : b.change = .array d)
    (hitems : .mk a.target (.array items) ∈ doc.snapshot.preorder)
    (hp : c.placed? (items.map Element.id) = some p) (hq : d.placed? (items.map Element.id) = some q)
    (hne : p ≠ q) : ∃ a' b' ids ids' merged merged',
      doc.Merges a b a' b' first second (.array items) (.array merged) (.array merged') ∧
      edit? (items.map Element.id) c = some ids ∧ edit? (items.map Element.id) d = some ids' ∧
      Arranged (c.leads d) p q ids ids' (merged.map Element.id) ∧
      Arranged (c.leads d) p q ids ids' (merged'.map Element.id) := by
  have hpool := h.nodup_with_children hdoc.sound hitems
  rw [List.map_append, List.nodup_append] at hpool
  obtain ⟨hnodup, -, happart⟩ := hpool
  have hfresh : ∀ v ∈ a.change.payload ++ b.change.payload, v.id ∉ items.map Element.id :=
    fun v hv hmem => happart _ hmem _ (List.mem_map_of_mem hv) rfl
  have harranges : Arranges (items.map Element.id) c d p q := by
    refine arranges_of_placed? hnodup (fun v hv => ?_) (fun w hw => ?_) hp hq hne
    · exact hfresh v (List.mem_append_left _ (by rw [ha]; exact hv))
    · exact hfresh w (List.mem_append_right _ (by rw [hb]; exact hw))
  obtain ⟨m⟩ := h.exists_meeting hdoc.sound Facet.array ha hb hitems
  have harranged := harranges _ _ _ _ _ m.rule (edit?_ids m.edit) (edit?_ids m.edit')
    (follow_ids m.follow)
  have hlawful : (Change.array c).Lawful := ha ▸ h.regular.lawful
  have hlawful' : (Change.array d).Lawful := hb ▸ h.regular'.lawful
  exact ⟨_, _, _, _, _, _, m.merges, edit?_ids m.edit, edit?_ids m.edit', harranged,
    m.ids_eq hlawful hlawful' ▸ harranged⟩

def listOfTwo : Document where
  root := "list"
  nodes := [("list", ⟨none, .array ["front", "back"]⟩), ("front", ⟨some "list", .string "a"⟩),
    ("back", ⟨some "list", .string "b"⟩)]

theorem reachable_listOfTwo : listOfTwo.Reachable := by
  have hmade : ofElement (.mk "list" (.array [.mk "front" (.string "a"), .mk "back" (.string "b")])) =
      .ok listOfTwo := rfl
  exact .ofElement (by decide) hmade

def appendItem : Edit :=
  ⟨"list", .array (.insert 2 (.mk "item" (.string "c"))), false⟩

def sendBack : Edit :=
  ⟨"list", .array (.move 0 1), false⟩

theorem meet_listOfTwo : ∃ first second, listOfTwo.Meet appendItem sendBack first second :=
  ⟨_, _, rfl, (by decide : appendItem.change.Legal).regular, (by decide : sendBack.change.Legal).regular,
    by decide, by decide, ⟨_, rfl⟩, ⟨_, rfl⟩⟩

/-- The appended item and the one sent back are given one gap, and the first side's goes in front. -/
theorem array_arranges_listOfTwo : ∃ first second a' b' items merged merged',
    listOfTwo.Merges appendItem sendBack a' b' first second (.array items) (.array merged)
      (.array merged') ∧
    ["item", "front"].Sublist (merged.map Element.id) ∧
    ["item", "front"].Sublist (merged'.map Element.id) := by
  obtain ⟨first, second, hmeet⟩ := meet_listOfTwo
  have hitems : .mk "list" (.array [.mk "front" (.string "a"), .mk "back" (.string "b")]) ∈
      listOfTwo.snapshot.preorder := .head _
  obtain ⟨a', b', ids, ids', merged, merged', hmerges, hids, hids', harranged, harranged'⟩ :=
    Reachable.array_arranges reachable_listOfTwo hmeet rfl rfl hitems (p := "item") (q := "front") rfl
      rfl (by decide)
  cases hids
  cases hids'
  exact ⟨first, second, a', b', _, merged, merged', hmerges, harranged, harranged'⟩

/-- Where the side that moves comes first, the appended item goes in front all the same. -/
theorem item_precedes_moved : ∃ first second a' b' items ids ids' merged merged',
    listOfTwo.Reachable ∧ listOfTwo.Meet sendBack appendItem first second ∧
    listOfTwo.Merges sendBack appendItem a' b' first second (.array items) (.array merged)
      (.array merged') ∧
    placed? (items.map Element.id) (.move 0 1) = some "front" ∧
    edit? (items.map Element.id) (.move 0 1) = some ids ∧
    edit? (items.map Element.id) (.insert 2 (.mk "item" (.string "c"))) = some ids' ∧
    gapWithout "item" ids "front" = gapWithout "front" ids' "item" ∧
    merged.map Element.id = ["back", "item", "front"] ∧
    ¬["front", "item"].Sublist (merged.map Element.id) := by
  have hmeet : ∃ first second, listOfTwo.Meet sendBack appendItem first second ∧
      listOfTwo.Merges sendBack appendItem ⟨"list", .array (.move 0 2), false⟩
        ⟨"list", .array (.insert 1 (.mk "item" (.string "c"))), false⟩ first second
        (.array [.mk "front" (.string "a"), .mk "back" (.string "b")])
        (.array [.mk "back" (.string "b"), .mk "item" (.string "c"), .mk "front" (.string "a")])
        (.array [.mk "back" (.string "b"), .mk "item" (.string "c"), .mk "front" (.string "a")]) :=
    ⟨_, _, ⟨rfl, (by decide : sendBack.change.Legal).regular,
      (by decide : appendItem.change.Legal).regular, by decide, by decide, ⟨_, rfl⟩, ⟨_, rfl⟩⟩,
      ⟨.head _, rfl, ⟨_, _, rfl, rfl⟩, ⟨_, _, rfl, rfl⟩⟩⟩
  obtain ⟨first, second, hmeet, hmerges⟩ := hmeet
  exact ⟨first, second, _, _, _, _, _, _, _, reachable_listOfTwo, hmeet, hmerges, rfl, rfl, rfl,
    by decide, rfl, by decide⟩

end Document
end CoEdit
