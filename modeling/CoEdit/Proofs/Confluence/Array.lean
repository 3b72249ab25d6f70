import CoEdit.Proofs.Agreement
import CoEdit.Proofs.Confluence.Joins
import CoEdit.Proofs.Relocate

/-!
# Array rules join

For any two changes that fit one array, the rule answers, and its answer joins the two edited arrays
(`joins_transform`). An array is looked at as the list of the ids of its items, so nothing depends on
what the items hold. Every reorder that a rule returns is legal again (`keeps_transform`).
-/
namespace CoEdit.ArrayChange
open Position

/-- The items of an array after a change, if the change fits. -/
def edit? (items : List ElementId) : ArrayChange → Option (List ElementId)
  | .insert index value =>
      if index ≤ items.length then some (items.insertIdx index value.id) else none
  | .remove index => if index < items.length then some (items.eraseIdx index) else none
  | .replace index value => if index < items.length then some (items.set index value.id) else none
  | .move source target =>
      if source < items.length ∧ target < items.length then some (relocate source target items)
      else none
  | .reorder order =>
      if order.length = items.length then some (Reorder.permute order items) else none
  | .set values => some (values.map Element.id)

def Lawful : ArrayChange → Prop
  | .reorder order => Reorder.isPermutation order = true
  | _ => True

variable {items : List ElementId} {value next : Element} {order : List Nat}

theorem edit?_insert {index : Nat} (h : index ≤ items.length) :
    edit? items (.insert index value) = some (items.insertIdx index value.id) := if_pos h

theorem edit?_remove {index : Nat} (h : index < items.length) :
    edit? items (.remove index) = some (items.eraseIdx index) := if_pos h

theorem edit?_replace {index : Nat} (h : index < items.length) :
    edit? items (.replace index value) = some (items.set index value.id) := if_pos h

theorem edit?_move {source target : Nat} (hs : source < items.length)
    (ht : target < items.length) :
    edit? items (.move source target) = some (relocate source target items) := if_pos ⟨hs, ht⟩

theorem edit?_reorder (h : order.length = items.length) :
    edit? items (.reorder order) = some (Reorder.permute order items) := if_pos h

theorem length_insertIdx_of_le {index : Nat} {item : ElementId} (h : index ≤ items.length) :
    (items.insertIdx index item).length = items.length + 1 := by
  rw [List.length_insertIdx, if_pos h]

theorem length_eraseIdx_of_lt {index : Nat} (h : index < items.length) :
    (items.eraseIdx index).length = items.length - 1 := by
  rw [List.length_eraseIdx, if_pos h]

/-! ## Pairs without a reorder -/

theorem joins_insert_insert {i j : Nat} (hi : i ≤ items.length) (hj : j ≤ items.length) :
    (transform (.insert i value) (.insert j next)).Joins edit? (items.insertIdx i value.id)
      (items.insertIdx j next.id) := by
  simp only [transform]
  split_ifs with h
  · refine Reconciled.joins_both
      (edit?_insert (by rw [length_insertIdx_of_le hi]; omega)) ?_
    rw [edit?_insert (by rw [length_insertIdx_of_le hj]; omega), List.insertIdx_comm _ _ h hj]
  · refine Reconciled.joins_both
      (edit?_insert (by rw [length_insertIdx_of_le hi]; omega)) ?_
    rw [edit?_insert (by rw [length_insertIdx_of_le hj]; omega),
      List.insertIdx_comm _ _ (by omega) hi]

theorem joins_insertRemove {i j : Nat} (hi : i ≤ items.length) (hj : j < items.length) :
    (insertRemove i value j).Joins edit? (items.insertIdx i value.id) (items.eraseIdx j) := by
  have hlaw := eraseIdx_insertIdx i value.id hj
  unfold insertRemove
  unfold afterInsert afterRemove at hlaw
  split_ifs with h
  · rw [if_pos h, if_neg (by omega), if_neg (by omega)] at hlaw
    refine Reconciled.joins_both
      (edit?_remove (by rw [length_insertIdx_of_le hi]; omega)) ?_
    rw [edit?_insert (by rw [length_eraseIdx_of_lt hj]; omega), hlaw]
  · rw [if_neg h, if_pos (by omega)] at hlaw
    refine Reconciled.joins_both
      (edit?_remove (by rw [length_insertIdx_of_le hi]; omega)) ?_
    rw [edit?_insert (by rw [length_eraseIdx_of_lt hj]; omega), hlaw]

theorem joins_insertReplace {i j : Nat} (hi : i ≤ items.length) (hj : j < items.length) :
    (insertReplace i value j next).Joins edit? (items.insertIdx i value.id)
      (items.set j next.id) := by
  have hlaw := set_insertIdx i value.id next.id hj
  unfold insertReplace
  unfold afterInsert at hlaw
  split_ifs with h
  · rw [if_pos h] at hlaw
    refine Reconciled.joins_both
      (edit?_replace (by rw [length_insertIdx_of_le hi]; omega)) ?_
    rw [edit?_insert (by simpa using hi), hlaw]
  · rw [if_neg h] at hlaw
    refine Reconciled.joins_both
      (edit?_replace (by rw [length_insertIdx_of_le hi]; omega)) ?_
    rw [edit?_insert (by simpa using hi), hlaw]

theorem insertGap_eq (i source : Nat) : (if i ≤ source then i else i - 1) = afterRemove source 1 i := by
  unfold afterRemove
  split_ifs <;> omega

/-- An insertion and a move both go into the array without the moved item. -/
theorem relocate_insertIdx {i source target : Nat} (item : ElementId) (hi : i ≤ items.length)
    (hs : source < items.length) (ht : target < items.length) :
    relocate (insertMove i source target).2.1 (insertMove i source target).2.2
        (items.insertIdx i item) =
      (relocate source target items).insertIdx (insertMove i source target).1 item := by
  have hsource : (if source < i then source else source + 1) = afterInsert i 1 source := by
    unfold afterInsert
    split_ifs <;> omega
  have hmoved : (items.insertIdx i item)[afterInsert i 1 source]? = items[source]? := by
    rw [List.getElem?_insertIdx]
    unfold afterInsert
    split_ifs <;> first | rfl | omega
  have hlen : (items.eraseIdx source).length = items.length - 1 := length_eraseIdx_of_lt hs
  have hle : afterRemove source 1 i ≤ (items.eraseIdx source).length := by
    unfold afterRemove
    split_ifs <;> omega
  rw [List.getElem?_eq_getElem hs] at hmoved
  simp only [insertMove, insertGap_eq, hsource]
  split_ifs with h
  · rw [relocate_eq hmoved, relocate_eq (List.getElem?_eq_getElem hs), eraseIdx_insertIdx i item hs,
      List.insertIdx_comm _ _ h (by omega)]
  · rw [relocate_eq hmoved, relocate_eq (List.getElem?_eq_getElem hs), eraseIdx_insertIdx i item hs,
      List.insertIdx_comm _ _ (by omega) hle]

theorem joins_insert_move {i source target : Nat} (hi : i ≤ items.length)
    (hs : source < items.length) (ht : target < items.length) :
    (transform (.insert i value) (.move source target)).Joins edit? (items.insertIdx i value.id)
      (relocate source target items) := by
  have hlaw := relocate_insertIdx value.id hi hs ht
  have hfits : (insertMove i source target).1 ≤ items.length ∧
      (insertMove i source target).2.1 < items.length + 1 ∧
      (insertMove i source target).2.2 < items.length + 1 := by
    unfold insertMove
    dsimp only
    split_ifs <;> refine ⟨?_, ?_, ?_⟩ <;> dsimp only <;> omega
  rw [← length_insertIdx_of_le hi] at hfits
  have hmove := edit?_move hfits.2.1 hfits.2.2
  rw [hlaw] at hmove
  rw [← length_relocate hs ht] at hfits
  exact Reconciled.joins_both hmove (edit?_insert hfits.1)

theorem joins_remove_remove {i j : Nat} (hi : i < items.length) (hj : j < items.length) :
    (transform (.remove i) (.remove j)).Joins edit? (items.eraseIdx i) (items.eraseIdx j) := by
  have hlaw := eraseIdx_eraseIdx items i j
  simp only [transform]
  unfold afterRemove at hlaw
  split_ifs with h h'
  · exact Reconciled.joins_neither (by rw [h])
  · rw [if_pos (by omega), if_neg (by omega), if_neg (by omega)] at hlaw
    refine Reconciled.joins_both
      (edit?_remove (by rw [length_eraseIdx_of_lt hi]; omega)) ?_
    rw [edit?_remove (by rw [length_eraseIdx_of_lt hj]; omega), hlaw]
  · rw [if_neg (by omega), if_neg (by omega), if_pos (by omega)] at hlaw
    refine Reconciled.joins_both
      (edit?_remove (by rw [length_eraseIdx_of_lt hi]; omega)) ?_
    rw [edit?_remove (by rw [length_eraseIdx_of_lt hj]; omega), hlaw]

theorem joins_removeReplace {i j : Nat} (hi : i < items.length) (hj : j < items.length) :
    (removeReplace i j next).Joins edit? (items.eraseIdx i) (items.set j next.id) := by
  unfold removeReplace
  split_ifs with h h'
  · have hlaw := set_eraseIdx items next.id (show i ≠ j by omega)
    unfold afterRemove at hlaw
    rw [if_pos (by omega)] at hlaw
    refine Reconciled.joins_both
      (edit?_replace (by rw [length_eraseIdx_of_lt hi]; omega)) ?_
    rw [edit?_remove (by simpa using hi), hlaw]
  · subst h'
    apply Reconciled.joins_secondOnly
    rw [edit?_insert (by rw [length_eraseIdx_of_lt hi]; omega), insertIdx_eraseIdx_self _ hi]
  · have hlaw := set_eraseIdx items next.id (show i ≠ j by omega)
    unfold afterRemove at hlaw
    rw [if_neg (by omega), if_neg (by omega)] at hlaw
    refine Reconciled.joins_both
      (edit?_replace (by rw [length_eraseIdx_of_lt hi]; omega)) ?_
    rw [edit?_remove (by simpa using hi), hlaw]

theorem relocate_eraseIdx {i source : Nat} (target : Nat) (hi : i < items.length)
    (hs : source < items.length) (hne : i ≠ source) :
    relocate (removeMove i source target).2.1 (removeMove i source target).2.2
        (items.eraseIdx i) =
      (relocate source target items).eraseIdx (afterMove source target i) := by
  have hgap : (if i < source then i else i - 1) = afterRemove source 1 i := by
    unfold afterRemove
    split_ifs <;> omega
  have hsource : (if source < i then source else source - 1) = afterRemove i 1 source := by
    unfold afterRemove
    split_ifs <;> omega
  have htarget (gap : Nat) :
      (if gap < target then target - 1 else target) = afterRemove gap 1 target := by
    unfold afterRemove
    split_ifs <;> omega
  have hmoved : (items.eraseIdx i)[afterRemove i 1 source]? = items[source]? := by
    rw [List.getElem?_eraseIdx]
    unfold afterRemove
    split_ifs <;> first | rfl | omega | (congr 1; omega)
  rw [List.getElem?_eq_getElem hs] at hmoved
  simp only [removeMove, hgap, hsource, htarget]
  rw [relocate_eq hmoved, eraseIdx_relocate (List.getElem?_eq_getElem hs) hi hne,
    eraseIdx_eraseIdx items i source]

theorem joins_remove_move {i source target : Nat} (hi : i < items.length)
    (hs : source < items.length) (ht : target < items.length) :
    (transform (.remove i) (.move source target)).Joins edit? (items.eraseIdx i)
      (relocate source target items) := by
  simp only [transform]
  split_ifs with h
  · subst h
    apply Reconciled.joins_firstOnly
    rw [edit?_remove (by rw [length_relocate hs ht]; exact ht), eraseIdx_relocate_self hs]
  · have hlaw := relocate_eraseIdx target hi hs h
    have hfits : (removeMove i source target).2.1 < items.length - 1 ∧
        (removeMove i source target).2.2 < items.length - 1 := by
      unfold removeMove
      dsimp only
      constructor <;> split_ifs <;> omega
    rw [← length_eraseIdx_of_lt hi] at hfits
    have hmove := edit?_move hfits.1 hfits.2
    rw [hlaw] at hmove
    have hlt := afterMove_lt hs ht hi
    rw [← length_relocate hs ht] at hlt
    exact Reconciled.joins_both hmove (edit?_remove hlt)

theorem joins_replace_replace {i j : Nat} (hi : i < items.length) (hj : j < items.length) :
    (transform (.replace i value) (.replace j next)).Joins edit? (items.set i value.id)
      (items.set j next.id) := by
  simp only [transform]
  split_ifs with h
  · refine Reconciled.joins_both (edit?_replace (by simpa using hj)) ?_
    rw [edit?_replace (by simpa using hi), List.set_comm _ _ h]
  · rw [not_not] at h
    subst h
    apply Reconciled.joins_firstWins
    · rw [edit?_replace (by simpa using hi), List.set_set]
    · intro hagree
      rw [Element.id_eq_of_agrees hagree]

theorem joins_replace_move {i source target : Nat} (hi : i < items.length)
    (hs : source < items.length) (ht : target < items.length) :
    (transform (.replace i value) (.move source target)).Joins edit? (items.set i value.id)
      (relocate source target items) := by
  refine Reconciled.joins_both (edit?_move (by simpa using hs) (by simpa using ht)) ?_
  rw [edit?_replace (by rw [length_relocate hs ht]; exact afterMove_lt hs ht hi),
    set_relocate _ hs ht]

theorem moveGap_eq {source other : Nat} (target : Nat) (h : source ≠ other) :
    moveGap target source other = afterRemove (afterRemove source 1 other) 1 target := by
  unfold moveGap afterRemove
  dsimp only
  split_ifs <;> omega

theorem relocate_relocate_of_ne {source₁ target₁ source₂ target₂ : Nat}
    (hs₁ : source₁ < items.length) (ht₁ : target₁ < items.length) (hs₂ : source₂ < items.length)
    (ht₂ : target₂ < items.length) (hne : source₁ ≠ source₂) :
    relocate (afterMove source₁ target₁ source₂) (moveMove source₁ target₁ source₂ target₂).2.2
        (relocate source₁ target₁ items) =
      relocate (afterMove source₂ target₂ source₁) (moveMove source₁ target₁ source₂ target₂).1.2
        (relocate source₂ target₂ items) := by
  have hitem₁ := List.getElem?_eq_getElem hs₁
  have hitem₂ := List.getElem?_eq_getElem hs₂
  have hmoved₂ := getElem?_relocate (p := source₂) hs₁ ht₁
  have hmoved₁ := getElem?_relocate (p := source₁) hs₂ ht₂
  rw [hitem₂] at hmoved₂
  rw [hitem₁] at hmoved₁
  have hlen : ((items.eraseIdx source₁).eraseIdx (afterRemove source₁ 1 source₂)).length =
      items.length - 2 := by
    have hlt : afterRemove source₁ 1 source₂ < items.length - 1 := by
      unfold afterRemove
      split_ifs <;> omega
    rw [List.length_eraseIdx, length_eraseIdx_of_lt hs₁, if_pos hlt]
    omega
  have hle₁ : moveGap target₁ source₁ source₂ ≤ items.length - 2 := by
    unfold moveGap
    dsimp only
    split_ifs <;> omega
  have hle₂ : moveGap target₂ source₂ source₁ ≤ items.length - 2 := by
    unfold moveGap
    dsimp only
    split_ifs <;> omega
  rw [relocate_eq hmoved₂, relocate_eq hmoved₁, eraseIdx_relocate hitem₁ hs₂ hne.symm,
    eraseIdx_relocate hitem₂ hs₁ hne, eraseIdx_eraseIdx items source₂ source₁,
    ← moveGap_eq target₁ hne, ← moveGap_eq target₂ hne.symm]
  simp only [moveMove]
  split_ifs with h
  · rw [List.insertIdx_comm _ _ h (by omega)]
  · rw [List.insertIdx_comm _ _ (by omega) (by omega)]

theorem joins_move_move {source₁ target₁ source₂ target₂ : Nat} (hs₁ : source₁ < items.length)
    (ht₁ : target₁ < items.length) (hs₂ : source₂ < items.length) (ht₂ : target₂ < items.length) :
    (transform (.move source₁ target₁) (.move source₂ target₂)).Joins edit?
      (relocate source₁ target₁ items) (relocate source₂ target₂ items) := by
  simp only [transform]
  split_ifs with h h'
  · exact Reconciled.joins_neither (by rw [h, h'])
  · subst h
    apply Reconciled.joins_firstOnly
    rw [edit?_move (by rwa [length_relocate hs₁ ht₂]) (by rwa [length_relocate hs₁ ht₂]),
      relocate_relocate hs₁ ht₂]
  · have hlaw := relocate_relocate_of_ne hs₁ ht₁ hs₂ ht₂ h
    have hfits : (moveMove source₁ target₁ source₂ target₂).1.2 < items.length ∧
        (moveMove source₁ target₁ source₂ target₂).2.2 < items.length := by
      unfold moveMove moveGap
      dsimp only
      constructor <;> split_ifs <;> dsimp only <;> omega
    have hlt₁ := afterMove_lt hs₂ ht₂ hs₁
    have hlt₂ := afterMove_lt hs₁ ht₁ hs₂
    rw [← length_relocate hs₂ ht₂] at hlt₁
    rw [← length_relocate hs₁ ht₁] at hlt₂
    have hmove₂ := edit?_move hlt₂ (by rw [length_relocate hs₁ ht₁]; exact hfits.2)
    rw [hlaw] at hmove₂
    exact Reconciled.joins_both hmove₂
      (edit?_move hlt₁ (by rw [length_relocate hs₂ ht₂]; exact hfits.1))

/-! ## Pairs with a reorder -/

theorem shrunkOrder_eq (h : Reorder.isPermutation order = true) {i : Nat} (hi : i < order.length) :
    shrunkOrder order i =
      (order.eraseIdx (Reorder.follow order i)).map fun o => if i < o then o - 1 else o := by
  have herase : order.filter (fun o => decide (o ≠ i)) = order.erase i := by
    rw [(Reorder.nodup h).erase_eq_filter]
    congr 1
    funext o
    by_cases ho : o = i <;> simp [ho]
  rw [shrunkOrder, herase,
    List.erase_eq_eraseIdx_of_idxOf (Reorder.follow_of_lt hi).symm]

theorem ne_of_mem_eraseIdx_follow (h : Reorder.isPermutation order = true) {i o : Nat}
    (hi : i < order.length) (ho : o ∈ order.eraseIdx (Reorder.follow order i)) : o ≠ i := by
  rw [← List.erase_eq_eraseIdx_of_idxOf (Reorder.follow_of_lt hi).symm] at ho
  exact ((Reorder.nodup h).mem_erase_iff.1 ho).1

theorem permute_grownOrder (hlen : order.length = items.length)
    (hlaw : Reorder.isPermutation order = true) {i index : Nat} (item : ElementId)
    (hi : i ≤ items.length) (hindex : index ≤ items.length) :
    Reorder.permute (grownOrder order i index) (items.insertIdx i item) =
      (Reorder.permute order items).insertIdx index item := by
  have hlt : ∀ o ∈ order, o < items.length := fun o ho => hlen ▸ Reorder.lt_of_mem hlaw ho
  have hgrown : ∀ o ∈ grownOrder order i index, o < (items.insertIdx i item).length := by
    intro o ho
    rw [length_insertIdx_of_le hi]
    rcases (List.mem_insertIdx (by simpa [hlen] using hindex)).1 ho with rfl | hmem
    · omega
    · obtain ⟨p, hp, rfl⟩ := List.mem_map.1 hmem
      have hp' := hlt p hp
      unfold afterInsert
      split_ifs <;> omega
  have hself : (items.insertIdx i item)[i]? = some item := by
    rw [List.getElem?_insertIdx_self, if_pos hi]
  apply Reorder.eq_of_map_some
  rw [Reorder.map_some_permute hgrown, List.map_insertIdx, Reorder.map_some_permute hlt,
    grownOrder, List.map_insertIdx, hself, List.map_map]
  congr 1
  apply List.map_congr_left
  intro o ho
  simp only [Function.comp_apply, List.getElem?_insertIdx, afterInsert]
  split_ifs <;> first | rfl | omega

theorem joins_insertReorder (hlen : order.length = items.length)
    (hlaw : Reorder.isPermutation order = true) {i : Nat} (hi : i ≤ items.length) :
    (insertReorder i value order).Joins edit? (items.insertIdx i value.id)
      (Reorder.permute order items) := by
  have hindex : Reorder.follow order i ≤ items.length := by
    rcases Nat.lt_or_ge i order.length with hlt | hge
    · have := Reorder.follow_lt hlaw hlt
      omega
    · rw [show i = order.length by omega, Reorder.follow_length, hlen]
  have hlt : ∀ o ∈ order, o < items.length := fun o ho => hlen ▸ Reorder.lt_of_mem hlaw ho
  have hgrown : (grownOrder order i (Reorder.follow order i)).length =
      (items.insertIdx i value.id).length := by
    rw [length_insertIdx_of_le hi, grownOrder, List.length_insertIdx, List.length_map, hlen,
      if_pos hindex]
  rw [insertReorder, if_neg (by omega)]
  refine Reconciled.joins_both (edit?_reorder hgrown) ?_
  rw [edit?_insert (by rw [Reorder.length_permute hlt, hlen]; exact hindex),
    permute_grownOrder hlen hlaw _ hi hindex]

theorem permute_shrunkOrder (hlen : order.length = items.length)
    (hlaw : Reorder.isPermutation order = true) {i : Nat} (hi : i < items.length) :
    Reorder.permute (shrunkOrder order i) (items.eraseIdx i) =
      (Reorder.permute order items).eraseIdx (Reorder.follow order i) := by
  have hlt : ∀ o ∈ order, o < items.length := fun o ho => hlen ▸ Reorder.lt_of_mem hlaw ho
  have hne : ∀ o ∈ order.eraseIdx (Reorder.follow order i), o ≠ i := fun o ho =>
    ne_of_mem_eraseIdx_follow hlaw (by omega) ho
  have hshrunk : ∀ o ∈ shrunkOrder order i, o < (items.eraseIdx i).length := by
    intro o ho
    rw [shrunkOrder_eq hlaw (by omega)] at ho
    obtain ⟨p, hp, rfl⟩ := List.mem_map.1 ho
    have hp' := hlt p (List.mem_of_mem_eraseIdx hp)
    have hpi := hne p hp
    rw [length_eraseIdx_of_lt hi]
    split_ifs <;> omega
  apply Reorder.eq_of_map_some
  rw [← List.eraseIdx_map, Reorder.map_some_permute hlt, Reorder.map_some_permute hshrunk,
    List.eraseIdx_map, shrunkOrder_eq hlaw (by omega), List.map_map]
  apply List.map_congr_left
  intro o ho
  have hoi := hne o ho
  simp only [Function.comp_apply, List.getElem?_eraseIdx]
  split_ifs <;> first | rfl | omega | (congr 1; omega)

theorem joins_removeReorder (hlen : order.length = items.length)
    (hlaw : Reorder.isPermutation order = true) {i : Nat} (hi : i < items.length) :
    (removeReorder i order).Joins edit? (items.eraseIdx i) (Reorder.permute order items) := by
  have hindex : Reorder.follow order i < items.length :=
    hlen ▸ Reorder.follow_lt hlaw (by omega)
  have hlt : ∀ o ∈ order, o < items.length := fun o ho => hlen ▸ Reorder.lt_of_mem hlaw ho
  have hshrunk : (shrunkOrder order i).length = (items.eraseIdx i).length := by
    rw [shrunkOrder_eq hlaw (by omega), List.length_map, List.length_eraseIdx,
      length_eraseIdx_of_lt hi, hlen, if_pos hindex]
  rw [removeReorder, if_neg (by omega)]
  refine Reconciled.joins_both (edit?_reorder hshrunk) ?_
  rw [edit?_remove (by rw [Reorder.length_permute hlt, hlen]; exact hindex),
    permute_shrunkOrder hlen hlaw hi]

theorem joins_replaceReorder (hlen : order.length = items.length)
    (hlaw : Reorder.isPermutation order = true) {i : Nat} (hi : i < items.length) :
    (replaceReorder i value order).Joins edit? (items.set i value.id)
      (Reorder.permute order items) := by
  have hlt : ∀ o ∈ order, o < items.length := fun o ho => hlen ▸ Reorder.lt_of_mem hlaw ho
  have hindex : Reorder.follow order i < order.length := Reorder.follow_lt hlaw (by omega)
  have hset : Reorder.permute order (items.set i value.id) =
      (Reorder.permute order items).set (Reorder.follow order i) value.id := by
    apply List.ext_getElem?
    intro k
    rw [Reorder.getElem?_permute (by simpa using hlt), List.getElem?_set,
      Reorder.getElem?_permute hlt, Reorder.length_permute hlt, if_pos hindex]
    by_cases hk : Reorder.follow order i = k
    · rw [if_pos hk, ← hk, Reorder.getElem?_follow hlaw (by omega), Option.bind_some,
        List.getElem?_set_self hi]
    · rw [if_neg hk]
      cases ho : order[k]? with
      | none => rfl
      | some o =>
          have hne : i ≠ o := by
            rintro rfl
            obtain ⟨hklt, hval⟩ := List.getElem?_eq_some_iff.1 ho
            apply hk
            rw [Reorder.follow_of_lt (by omega), ← hval,
              (Reorder.nodup hlaw).idxOf_getElem k hklt]
          rw [Option.bind_some, Option.bind_some, List.getElem?_set_ne hne]
  rw [replaceReorder, if_neg (by omega)]
  refine Reconciled.joins_both (edit?_reorder (by simpa using hlen)) ?_
  rw [edit?_replace (by rw [Reorder.length_permute hlt]; exact hindex), hset]

theorem joins_moveReorder (hlen : order.length = items.length)
    (hlaw : Reorder.isPermutation order = true) {source target : Nat} (hs : source < items.length)
    (ht : target < items.length) :
    (moveReorder source target order).Joins edit? (relocate source target items)
      (Reorder.permute order items) := by
  have hlt : ∀ o ∈ order, o < items.length := fun o ho => hlen ▸ Reorder.lt_of_mem hlaw ho
  have hmoved : ∀ o ∈ order.map (afterMove source target),
      o < (relocate source target items).length := by
    intro o ho
    obtain ⟨p, hp, rfl⟩ := List.mem_map.1 ho
    rw [length_relocate hs ht]
    exact afterMove_lt hs ht (hlt p hp)
  rw [moveReorder, if_neg (by omega)]
  apply Reconciled.joins_secondOnly
  rw [edit?_reorder (by rw [length_relocate hs ht, List.length_map, hlen])]
  congr 1
  apply Reorder.eq_of_map_some
  rw [Reorder.map_some_permute hmoved, Reorder.map_some_permute hlt, List.map_map]
  apply List.map_congr_left
  intro o _
  exact getElem?_relocate hs ht

theorem joins_reorderReorder {order₁ order₂ : List Nat} (hlen₁ : order₁.length = items.length)
    (hlaw₁ : Reorder.isPermutation order₁ = true) (hlen₂ : order₂.length = items.length)
    (hlaw₂ : Reorder.isPermutation order₂ = true) :
    (reorderReorder order₁ order₂).Joins edit? (Reorder.permute order₁ items)
      (Reorder.permute order₂ items) := by
  have hlt₁ : ∀ o ∈ order₁, o < items.length := fun o ho => hlen₁ ▸ Reorder.lt_of_mem hlaw₁ ho
  have hlt₂ : ∀ o ∈ order₂, o < items.length := fun o ho => hlen₂ ▸ Reorder.lt_of_mem hlaw₂ ho
  have hfollow : ∀ o ∈ order₁.map (Reorder.follow order₂),
      o < (Reorder.permute order₂ items).length := by
    intro o ho
    obtain ⟨p, hp, rfl⟩ := List.mem_map.1 ho
    rw [Reorder.length_permute hlt₂]
    exact Reorder.follow_lt hlaw₂ (by rw [hlen₂]; exact hlt₁ p hp)
  rw [reorderReorder, if_neg (by omega)]
  split_ifs with h
  · exact Reconciled.joins_neither (by rw [h])
  · apply Reconciled.joins_firstOnly
    rw [edit?_reorder (by rw [Reorder.length_permute hlt₂, List.length_map, hlen₁, hlen₂])]
    congr 1
    apply Reorder.eq_of_map_some
    rw [Reorder.map_some_permute hfollow, Reorder.map_some_permute hlt₁, List.map_map]
    apply List.map_congr_left
    intro o ho
    have hlt : o < order₂.length := by
      rw [hlen₂]
      exact hlt₁ o ho
    rw [Function.comp_apply, Reorder.getElem?_permute hlt₂, Reorder.getElem?_follow hlaw₂ hlt,
      Option.bind_some]

/-! ## All pairs -/

/-- The two orders of a removal and a move are written out apart, but answer alike. -/
theorem transform_move_remove (source target i : Nat) :
    transform (.move source target) (.remove i) =
      (transform (.remove i) (.move source target)).swap := by
  simp only [transform]
  split_ifs <;> rfl

/-- Whatever two changes were made to one array, the rule joins the results. -/
theorem joins_transform {c d : ArrayChange} {after₁ after₂ : List ElementId} (hc : c.Lawful)
    (hd : d.Lawful) (h₁ : edit? items c = some after₁) (h₂ : edit? items d = some after₂) :
    (c.transform d).Joins edit? after₁ after₂ := by
  cases d with
  | set ws =>
      cases h₂
      cases c with
      | set vs =>
          cases h₁
          exact Reconciled.joins_firstWins rfl Element.map_id_eq_of_agreesItems
      | _ => exact Reconciled.joins_secondOnly rfl
  | insert j w =>
      obtain ⟨hj, rfl⟩ := Option.ite_some_none_eq_some.1 h₂
      cases c with
      | set vs => cases h₁; exact Reconciled.joins_firstOnly rfl
      | insert i v =>
          obtain ⟨hi, rfl⟩ := Option.ite_some_none_eq_some.1 h₁
          exact joins_insert_insert hi hj
      | remove i =>
          obtain ⟨hi, rfl⟩ := Option.ite_some_none_eq_some.1 h₁
          exact (joins_insertRemove hj hi).swap
      | replace i v =>
          obtain ⟨hi, rfl⟩ := Option.ite_some_none_eq_some.1 h₁
          exact (joins_insertReplace hj hi).swap
      | move s t =>
          obtain ⟨⟨hs, ht⟩, rfl⟩ := Option.ite_some_none_eq_some.1 h₁
          exact (joins_insert_move hj hs ht).swap
      | reorder o =>
          obtain ⟨ho, rfl⟩ := Option.ite_some_none_eq_some.1 h₁
          exact (joins_insertReorder ho hc hj).swap
  | remove j =>
      obtain ⟨hj, rfl⟩ := Option.ite_some_none_eq_some.1 h₂
      cases c with
      | set vs => cases h₁; exact Reconciled.joins_firstOnly rfl
      | insert i v =>
          obtain ⟨hi, rfl⟩ := Option.ite_some_none_eq_some.1 h₁
          exact joins_insertRemove hi hj
      | remove i =>
          obtain ⟨hi, rfl⟩ := Option.ite_some_none_eq_some.1 h₁
          exact joins_remove_remove hi hj
      | replace i v =>
          obtain ⟨hi, rfl⟩ := Option.ite_some_none_eq_some.1 h₁
          exact (joins_removeReplace hj hi).swap
      | move s t =>
          obtain ⟨⟨hs, ht⟩, rfl⟩ := Option.ite_some_none_eq_some.1 h₁
          rw [transform_move_remove]
          exact (joins_remove_move hj hs ht).swap
      | reorder o =>
          obtain ⟨ho, rfl⟩ := Option.ite_some_none_eq_some.1 h₁
          exact (joins_removeReorder ho hc hj).swap
  | replace j w =>
      obtain ⟨hj, rfl⟩ := Option.ite_some_none_eq_some.1 h₂
      cases c with
      | set vs => cases h₁; exact Reconciled.joins_firstOnly rfl
      | insert i v =>
          obtain ⟨hi, rfl⟩ := Option.ite_some_none_eq_some.1 h₁
          exact joins_insertReplace hi hj
      | remove i =>
          obtain ⟨hi, rfl⟩ := Option.ite_some_none_eq_some.1 h₁
          exact joins_removeReplace hi hj
      | replace i v =>
          obtain ⟨hi, rfl⟩ := Option.ite_some_none_eq_some.1 h₁
          exact joins_replace_replace hi hj
      | move s t =>
          obtain ⟨⟨hs, ht⟩, rfl⟩ := Option.ite_some_none_eq_some.1 h₁
          exact (joins_replace_move hj hs ht).swap
      | reorder o =>
          obtain ⟨ho, rfl⟩ := Option.ite_some_none_eq_some.1 h₁
          exact (joins_replaceReorder ho hc hj).swap
  | move s t =>
      obtain ⟨⟨hs, ht⟩, rfl⟩ := Option.ite_some_none_eq_some.1 h₂
      cases c with
      | set vs => cases h₁; exact Reconciled.joins_firstOnly rfl
      | insert i v =>
          obtain ⟨hi, rfl⟩ := Option.ite_some_none_eq_some.1 h₁
          exact joins_insert_move hi hs ht
      | remove i =>
          obtain ⟨hi, rfl⟩ := Option.ite_some_none_eq_some.1 h₁
          exact joins_remove_move hi hs ht
      | replace i v =>
          obtain ⟨hi, rfl⟩ := Option.ite_some_none_eq_some.1 h₁
          exact joins_replace_move hi hs ht
      | move s' t' =>
          obtain ⟨⟨hs', ht'⟩, rfl⟩ := Option.ite_some_none_eq_some.1 h₁
          exact joins_move_move hs' ht' hs ht
      | reorder o =>
          obtain ⟨ho, rfl⟩ := Option.ite_some_none_eq_some.1 h₁
          exact (joins_moveReorder ho hc hs ht).swap
  | reorder o =>
      obtain ⟨ho, rfl⟩ := Option.ite_some_none_eq_some.1 h₂
      cases c with
      | set vs => cases h₁; exact Reconciled.joins_firstOnly rfl
      | insert i v =>
          obtain ⟨hi, rfl⟩ := Option.ite_some_none_eq_some.1 h₁
          exact joins_insertReorder ho hd hi
      | remove i =>
          obtain ⟨hi, rfl⟩ := Option.ite_some_none_eq_some.1 h₁
          exact joins_removeReorder ho hd hi
      | replace i v =>
          obtain ⟨hi, rfl⟩ := Option.ite_some_none_eq_some.1 h₁
          exact joins_replaceReorder ho hd hi
      | move s t =>
          obtain ⟨⟨hs, ht⟩, rfl⟩ := Option.ite_some_none_eq_some.1 h₁
          exact joins_moveReorder ho hd hs ht
      | reorder o' =>
          obtain ⟨ho', rfl⟩ := Option.ite_some_none_eq_some.1 h₁
          exact joins_reorderReorder ho' hc ho hd

/-! ## What a rule returns -/

/-- What is left of a change is legal and brings along what the change brought along. -/
structure Rebased (change left : ArrayChange) : Prop where
  lawful : left.Lawful
  payload : left.payload = change.payload

theorem isPermutation_grownOrder (h : Reorder.isPermutation order = true) {i index : Nat}
    (hi : i ≤ order.length) (hindex : index ≤ order.length) :
    Reorder.isPermutation (grownOrder order i index) = true := by
  have hmem (o : Nat) : o ∈ grownOrder order i index ↔ o = i ∨ o ∈ order.map (afterInsert i 1) :=
    List.mem_insertIdx (by simpa using hindex)
  have hlen : (grownOrder order i index).length = order.length + 1 := by
    rw [grownOrder, List.length_insertIdx, List.length_map, if_pos hindex]
  have hfresh : i ∉ order.map (afterInsert i 1) := by
    intro hmem
    obtain ⟨p, -, hp⟩ := List.mem_map.1 hmem
    unfold afterInsert at hp
    split_ifs at hp <;> omega
  have hinj : Function.Injective (afterInsert i 1) := by
    intro p q hpq
    rw [← afterRemove_afterInsert i 1 p, hpq, afterRemove_afterInsert]
  apply Reorder.isPermutation_of_nodup
  · rw [grownOrder, (List.perm_insertIdx i _ (by simpa using hindex)).nodup_iff,
      List.nodup_cons]
    exact ⟨hfresh, (Reorder.nodup h).map hinj⟩
  · intro o ho
    rw [hlen]
    rcases (hmem o).1 ho with rfl | ho
    · omega
    · obtain ⟨p, hp, rfl⟩ := List.mem_map.1 ho
      have hlt := Reorder.lt_of_mem h hp
      unfold afterInsert
      split_ifs <;> omega

theorem isPermutation_shrunkOrder (h : Reorder.isPermutation order = true) {i : Nat}
    (hi : i < order.length) : Reorder.isPermutation (shrunkOrder order i) = true := by
  have hfollow := Reorder.follow_lt h hi
  have hlen : (shrunkOrder order i).length = order.length - 1 := by
    rw [shrunkOrder_eq h hi, List.length_map, List.length_eraseIdx, if_pos hfollow]
  have hne : ∀ o ∈ order.eraseIdx (Reorder.follow order i), o ≠ i := fun o ho =>
    ne_of_mem_eraseIdx_follow h hi ho
  apply Reorder.isPermutation_of_nodup
  · rw [shrunkOrder_eq h hi]
    refine List.Nodup.map_on ?_ ((Reorder.nodup h).sublist (List.eraseIdx_sublist _ _))
    intro p hp q hq hpq
    have hpi := hne p hp
    have hqi := hne q hq
    split_ifs at hpq <;> omega
  · intro o ho
    rw [hlen]
    rw [shrunkOrder_eq h hi] at ho
    obtain ⟨p, hp, rfl⟩ := List.mem_map.1 ho
    have hlt := Reorder.lt_of_mem h (List.mem_of_mem_eraseIdx hp)
    have hpi := hne p hp
    split_ifs <;> omega

theorem keeps_insertReorder {i : Nat} (h : Reorder.isPermutation order = true) :
    (insertReorder i value order).Keeps (Rebased (.insert i value)) (Rebased (.reorder order)) := by
  unfold insertReorder
  split_ifs with hi
  · exact Reconciled.keeps_error _
  · have hindex : Reorder.follow order i ≤ order.length := by
      rcases Nat.lt_or_ge i order.length with hlt | hge
      · exact (Reorder.follow_lt h hlt).le
      · rw [show i = order.length by omega, Reorder.follow_length]
    exact Reconciled.keeps_both ⟨trivial, rfl⟩
      ⟨isPermutation_grownOrder h (by omega) hindex, rfl⟩

theorem keeps_removeReorder {i : Nat} (h : Reorder.isPermutation order = true) :
    (removeReorder i order).Keeps (Rebased (.remove i)) (Rebased (.reorder order)) := by
  unfold removeReorder
  split_ifs with hi
  · exact Reconciled.keeps_error _
  · exact Reconciled.keeps_both ⟨trivial, rfl⟩ ⟨isPermutation_shrunkOrder h (by omega), rfl⟩

theorem keeps_replaceReorder {i : Nat} (h : Reorder.isPermutation order = true) :
    (replaceReorder i value order).Keeps (Rebased (.replace i value))
      (Rebased (.reorder order)) := by
  unfold replaceReorder
  split_ifs with hi
  · exact Reconciled.keeps_error _
  · exact Reconciled.keeps_both ⟨trivial, rfl⟩ ⟨h, rfl⟩

theorem keeps_moveReorder {source target : Nat} (h : Reorder.isPermutation order = true) :
    (moveReorder source target order).Keeps (Rebased (.move source target))
      (Rebased (.reorder order)) := by
  unfold moveReorder
  split_ifs with hlt
  · exact Reconciled.keeps_error _
  · refine Reconciled.keeps_secondOnly ⟨?_, rfl⟩
    exact Reorder.isPermutation_map h (fun p hp => afterMove_lt (by omega) (by omega) hp)
      fun p _ q _ hpq => afterMove_inj hpq

theorem keeps_reorderReorder {order₁ order₂ : List Nat}
    (h₁ : Reorder.isPermutation order₁ = true) (h₂ : Reorder.isPermutation order₂ = true) :
    (reorderReorder order₁ order₂).Keeps (Rebased (.reorder order₁))
      (Rebased (.reorder order₂)) := by
  unfold reorderReorder
  split_ifs with hlen heq
  · exact Reconciled.keeps_error _
  · exact Reconciled.keeps_neither
  · rw [not_not] at hlen
    refine Reconciled.keeps_firstOnly ⟨?_, rfl⟩
    exact Reorder.isPermutation_map h₁
      (fun p hp => hlen ▸ Reorder.follow_lt h₂ (hlen ▸ hp))
      fun p hp q hq hpq => Reorder.follow_injOn h₂ (hlen ▸ hp) (hlen ▸ hq) hpq

theorem keeps_transform_of_ne_reorder {c d : ArrayChange} (hc : ∀ order, c ≠ .reorder order)
    (hd : ∀ order, d ≠ .reorder order) : (c.transform d).Keeps (Rebased c) (Rebased d) := by
  cases c with
  | reorder order => exact absurd rfl (hc order)
  | set vs =>
      cases d with
      | reorder order => exact absurd rfl (hd order)
      | set ws => exact Reconciled.keeps_firstWins ⟨trivial, rfl⟩
      | _ => exact Reconciled.keeps_firstOnly ⟨trivial, rfl⟩
  | _ =>
      cases d with
      | reorder order => exact absurd rfl (hd order)
      | set ws => exact Reconciled.keeps_secondOnly ⟨trivial, rfl⟩
      | _ =>
          simp only [transform, insertRemove, insertReplace, removeReplace]
          try split_ifs
          all_goals
            first
            | exact Reconciled.keeps_both ⟨trivial, rfl⟩ ⟨trivial, rfl⟩
            | exact (Reconciled.keeps_both ⟨trivial, rfl⟩ ⟨trivial, rfl⟩).swap
            | exact Reconciled.keeps_firstOnly ⟨trivial, rfl⟩
            | exact Reconciled.keeps_secondOnly ⟨trivial, rfl⟩
            | exact (Reconciled.keeps_secondOnly ⟨trivial, rfl⟩).swap
            | exact Reconciled.keeps_firstWins ⟨trivial, rfl⟩
            | exact Reconciled.keeps_neither

/-- Whatever a rule leaves of two legal changes is legal, and nothing that was brought along is
exchanged. -/
theorem keeps_transform {c d : ArrayChange} (hc : c.Lawful) (hd : d.Lawful) :
    (c.transform d).Keeps (Rebased c) (Rebased d) := by
  cases c with
  | reorder order =>
      cases d with
      | insert j w => exact (keeps_insertReorder hc).swap
      | remove j => exact (keeps_removeReorder hc).swap
      | replace j w => exact (keeps_replaceReorder hc).swap
      | move source target => exact (keeps_moveReorder hc).swap
      | reorder order' => exact keeps_reorderReorder hc hd
      | set ws => exact Reconciled.keeps_secondOnly ⟨trivial, rfl⟩
  | _ =>
      cases d with
      | reorder order =>
          first
          | exact keeps_insertReorder hd
          | exact keeps_removeReorder hd
          | exact keeps_replaceReorder hd
          | exact keeps_moveReorder hd
          | exact Reconciled.keeps_firstOnly ⟨trivial, rfl⟩
      | _ => exact keeps_transform_of_ne_reorder (by simp) (by simp)

end CoEdit.ArrayChange
