import CoEdit.Proofs.Confluence.Joins
import CoEdit.Transform.String
import Mathlib.Tactic.SplitIfs

/-!
# Text rules join

For any two changes that fit one text, the answer of the rule joins the two edited texts
(`joins_transform`). Two texts are compared character by character, so that every overlap of two spans
comes down to where an index lies.
-/
namespace CoEdit.Text

variable {index count : Nat} {piece text : String}

theorem ext_getElem? {s t : String} (h : ∀ k : Nat, s.toList[k]? = t.toList[k]?) : s = t :=
  String.toList_inj.1 (List.ext_getElem? h)

theorem length_insert (h : index ≤ text.length) :
    (insert index piece text).length = text.length + piece.length := by
  rw [← String.length_toList, ← String.length_toList] at *
  rw [toList_insert, List.length_append, List.length_append, List.length_drop,
    List.length_take_of_le h, ← String.length_toList]
  omega

theorem length_remove (h : index + count ≤ text.length) :
    (remove index count text).length = text.length - count := by
  rw [← String.length_toList, ← String.length_toList] at *
  rw [toList_remove, List.length_append, List.length_drop, List.length_take_of_le (by omega)]
  omega

theorem getElem?_insert (h : index ≤ text.length) (k : Nat) :
    (insert index piece text).toList[k]? =
      if k < index then text.toList[k]?
      else if k < index + piece.length then piece.toList[k - index]?
      else text.toList[k - piece.length]? := by
  rw [← String.length_toList] at h
  rw [toList_insert, List.append_assoc, List.getElem?_append, List.getElem?_append,
    List.length_take_of_le h, List.getElem?_drop, String.length_toList, List.getElem?_take]
  split_ifs <;> first | rfl | omega | (congr 1; omega)

theorem getElem?_remove (h : index ≤ text.length) (k : Nat) :
    (remove index count text).toList[k]? =
      if k < index then text.toList[k]? else text.toList[k + count]? := by
  rw [← String.length_toList] at h
  rw [toList_remove, List.getElem?_append, List.length_take_of_le h, List.getElem?_drop,
    List.getElem?_take]
  split_ifs <;> first | rfl | (congr 1; omega)

end CoEdit.Text

namespace CoEdit.StringChange
open Position

def edit? (text : String) : StringChange → Option String
  | .insert index piece =>
      if index ≤ text.length then some (Text.insert index piece text) else none
  | .remove index piece =>
      if index + piece.length ≤ text.length then some (Text.remove index piece.length text)
      else none
  | .set next => some next

variable {text piece gone : String} {i j : Nat}

theorem edit?_insert (h : i ≤ text.length) :
    edit? text (.insert i piece) = some (Text.insert i piece text) := if_pos h

theorem edit?_remove (h : i + gone.length ≤ text.length) :
    edit? text (.remove i gone) = some (Text.remove i gone.length text) := if_pos h

theorem insert_insert {s t : String} (hij : i ≤ j) (hj : j ≤ text.length) :
    Text.insert (j + s.length) t (Text.insert i s text) =
      Text.insert i s (Text.insert j t text) := by
  have hs : (Text.insert i s text).length = _ := Text.length_insert (by omega)
  have ht : (Text.insert j t text).length = _ := Text.length_insert hj
  apply Text.ext_getElem?
  intro k
  simp (disch := omega) only [Text.getElem?_insert]
  split_ifs <;> first | rfl | omega | (congr 1; omega)

theorem remove_insert_of_le {count : Nat} (hij : i ≤ j) (hj : j + count ≤ text.length) :
    Text.remove (j + piece.length) count (Text.insert i piece text) =
      Text.insert i piece (Text.remove j count text) := by
  have hs : (Text.insert i piece text).length = _ := Text.length_insert (by omega)
  have ht : (Text.remove j count text).length = _ := Text.length_remove hj
  apply Text.ext_getElem?
  intro k
  simp (disch := omega) only [Text.getElem?_insert, Text.getElem?_remove]
  split_ifs <;> first | rfl | omega | (congr 1; omega)

theorem remove_insert_of_ge {count : Nat} (hij : j + count ≤ i) (hi : i ≤ text.length) :
    Text.remove j count (Text.insert i piece text) =
      Text.insert (i - count) piece (Text.remove j count text) := by
  have hs : (Text.insert i piece text).length = _ := Text.length_insert hi
  have ht : (Text.remove j count text).length = _ := Text.length_remove (by omega)
  apply Text.ext_getElem?
  intro k
  simp (disch := omega) only [Text.getElem?_insert, Text.getElem?_remove]
  split_ifs <;> first | rfl | omega | (congr 1; omega)

theorem remove_insert_inside {count : Nat} (hji : j ≤ i) (hij : i ≤ j + count)
    (hj : j + count ≤ text.length) :
    Text.remove j (count + piece.length) (Text.insert i piece text) =
      Text.remove j count text := by
  have hs : (Text.insert i piece text).length = _ := Text.length_insert (by omega)
  apply Text.ext_getElem?
  intro k
  simp (disch := omega) only [Text.getElem?_insert, Text.getElem?_remove]
  split_ifs <;> first | rfl | omega | (congr 1; omega)

theorem remove_remove_of_le {count length : Nat} (hij : i + count ≤ j)
    (hj : j + length ≤ text.length) :
    Text.remove (j - count) length (Text.remove i count text) =
      Text.remove i count (Text.remove j length text) := by
  have hs : (Text.remove i count text).length = _ := Text.length_remove (by omega)
  have ht : (Text.remove j length text).length = _ := Text.length_remove hj
  apply Text.ext_getElem?
  intro k
  simp (disch := omega) only [Text.getElem?_remove]
  split_ifs <;> first | rfl | omega | (congr 1; omega)

theorem joins_insert_insert {s t : String} (hi : i ≤ text.length) (hj : j ≤ text.length) :
    (transform (.insert i s) (.insert j t)).Joins edit? (Text.insert i s text)
      (Text.insert j t text) := by
  have hs : (Text.insert i s text).length = _ := Text.length_insert hi
  have ht : (Text.insert j t text).length = _ := Text.length_insert hj
  simp only [transform, afterInsert]
  split_ifs with h h'
  · refine Reconciled.joins_both (edit?_insert (by omega)) ?_
    rw [edit?_insert (by omega), insert_insert h hj]
  · refine Reconciled.joins_both (edit?_insert (by omega)) ?_
    rw [edit?_insert (by omega), insert_insert h' hi]
  · omega

theorem joins_insertRemove (hi : i ≤ text.length) (hj : j + gone.length ≤ text.length) :
    (insertRemove i piece j gone).Joins edit? (Text.insert i piece text)
      (Text.remove j gone.length text) := by
  have hs : (Text.insert i piece text).length = _ := Text.length_insert hi
  have ht : (Text.remove j gone.length text).length = _ := Text.length_remove hj
  unfold insertRemove
  split_ifs with h h'
  · rw [afterInsert, if_pos h]
    refine Reconciled.joins_both (edit?_remove (by omega)) ?_
    rw [edit?_insert (by omega), remove_insert_of_le h hj]
  · rw [afterRemove, if_pos h']
    refine Reconciled.joins_both (edit?_remove (by omega)) ?_
    rw [edit?_insert (by omega), remove_insert_of_ge h' hi]
  · have hgone : (Text.insert (i - j) piece gone).length = _ := Text.length_insert (by omega)
    apply Reconciled.joins_secondOnly
    rw [edit?_remove (by omega), hgone, remove_insert_inside (by omega) (by omega) hj]

theorem length_outside (start : Nat) (s : String) (low high : Nat) :
    (outside start s low high).length = min (low - start) s.length + (s.length - (high - start)) := by
  rw [outside, String.length_ofList, List.length_append, List.length_take, List.length_drop,
    String.length_toList]

/-- What is left of a removal, once an overlapping one was made, removes the rest of what the two
cover together. -/
theorem follow_shrink {s : String} {length : Nat} (hij : i < j + length) (hji : j < i + s.length)
    (hi : i + s.length ≤ text.length) (hj : j + length ≤ text.length) :
    (shrink i s j (j + length)).follow edit? (Text.remove j length text) =
      some (Text.remove (min i j) (max (i + s.length) (j + length) - min i j) text) := by
  have ht : (Text.remove j length text).length = _ := Text.length_remove hj
  have hkept := length_outside i s j (j + length)
  simp only [shrink]
  split_ifs with h
  · rw [h, String.length_empty] at hkept
    rw [show min i j = j by omega, show max (i + s.length) (j + length) - j = length by omega]
    rfl
  · rw [Outcome.follow, edit?_remove (by omega)]
    congr 1
    apply Text.ext_getElem?
    intro k
    simp (disch := omega) only [Text.getElem?_remove]
    split_ifs <;> first | rfl | omega | (congr 1; omega)

theorem joins_remove_remove {s t : String} (hi : i + s.length ≤ text.length)
    (hj : j + t.length ≤ text.length) :
    (transform (.remove i s) (.remove j t)).Joins edit? (Text.remove i s.length text)
      (Text.remove j t.length text) := by
  have hs : (Text.remove i s.length text).length = _ := Text.length_remove hi
  have ht : (Text.remove j t.length text).length = _ := Text.length_remove hj
  simp only [transform]
  split_ifs with h h'
  · rw [afterRemove, if_pos h]
    refine Reconciled.joins_both (edit?_remove (by omega)) ?_
    rw [edit?_remove (by omega), remove_remove_of_le h hj]
  · rw [afterRemove, if_pos h']
    refine Reconciled.joins_both (edit?_remove (by omega)) ?_
    rw [edit?_remove (by omega), remove_remove_of_le h' hi]
  · refine ⟨_, _, _, rfl, ?_, follow_shrink (by omega) (by omega) hi hj⟩
    rw [follow_shrink (by omega) (by omega) hj hi, Nat.min_comm, Nat.max_comm]

/-- Whatever two changes were made to one text, the rule joins the results. -/
theorem joins_transform {c d : StringChange} {after₁ after₂ : String}
    (h₁ : edit? text c = some after₁) (h₂ : edit? text d = some after₂) :
    (c.transform d).Joins edit? after₁ after₂ := by
  cases d with
  | set t =>
      cases h₂
      cases c with
      | set s =>
          cases h₁
          exact Reconciled.joins_firstWins rfl fun h => beq_iff_eq.1 h
      | _ => exact Reconciled.joins_secondOnly rfl
  | insert j t =>
      obtain ⟨hj, rfl⟩ := Option.ite_some_none_eq_some.1 h₂
      cases c with
      | set s =>
          cases h₁
          exact Reconciled.joins_firstOnly rfl
      | insert i s =>
          obtain ⟨hi, rfl⟩ := Option.ite_some_none_eq_some.1 h₁
          exact joins_insert_insert hi hj
      | remove i s =>
          obtain ⟨hi, rfl⟩ := Option.ite_some_none_eq_some.1 h₁
          exact (joins_insertRemove hj hi).swap
  | remove j t =>
      obtain ⟨hj, rfl⟩ := Option.ite_some_none_eq_some.1 h₂
      cases c with
      | set s =>
          cases h₁
          exact Reconciled.joins_firstOnly rfl
      | insert i s =>
          obtain ⟨hi, rfl⟩ := Option.ite_some_none_eq_some.1 h₁
          exact joins_insertRemove hi hj
      | remove i s =>
          obtain ⟨hi, rfl⟩ := Option.ite_some_none_eq_some.1 h₁
          exact joins_remove_remove hi hj

end CoEdit.StringChange
