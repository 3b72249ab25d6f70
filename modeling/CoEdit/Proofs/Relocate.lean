import CoEdit.Transform.Array
import CoEdit.Proofs.Reorder
import Mathlib.Tactic.SplitIfs

/-!
# Edits of a list commute

Taking an item out, putting one in, overwriting one and moving one are edits of a list at an index. Two
of them commute once their indices are carried along by the position maps. A move takes its item out
and puts it back in, so its laws come from those for the two halves: whatever meets a move is first
located in the list without the moved item.
-/
namespace CoEdit.Position

variable {α : Type} {items : List α}

theorem afterMove_self (source target : Nat) : afterMove source target source = target := by
  simp [afterMove]

/-- An item that does not move itself is located in the list without the moved one and then makes
room for it. -/
theorem afterMove_of_ne {source target p : Nat} (h : p ≠ source) :
    afterMove source target p = afterInsert target 1 (afterRemove source 1 p) := by
  unfold afterMove afterInsert afterRemove
  rw [if_neg h]
  dsimp only
  split_ifs <;> omega

theorem afterMove_lt {source target n p : Nat} (hs : source < n) (ht : target < n) (hp : p < n) :
    afterMove source target p < n := by
  unfold afterMove
  dsimp only
  split_ifs <;> omega

theorem afterMove_inj {source target p q : Nat}
    (h : afterMove source target p = afterMove source target q) : p = q := by
  rw [← afterMove_afterMove source target p, h, afterMove_afterMove]

theorem eraseIdx_insertIdx (gap : Nat) (item : α) {p : Nat} (hp : p < items.length) :
    (items.insertIdx gap item).eraseIdx (afterInsert gap 1 p) =
      (items.eraseIdx p).insertIdx (afterRemove p 1 gap) item := by
  unfold afterInsert afterRemove
  by_cases h : gap ≤ p
  · rw [if_pos h, if_neg (by omega), if_neg (by omega), List.insertIdx_eraseIdx_of_le hp h]
  · rw [if_neg h, if_pos (by omega), List.insertIdx_eraseIdx_of_ge hp (by omega),
      Nat.sub_add_cancel (by omega)]

theorem eraseIdx_eraseIdx (items : List α) (p q : Nat) :
    (items.eraseIdx p).eraseIdx (afterRemove p 1 q) =
      (items.eraseIdx q).eraseIdx (afterRemove q 1 p) := by
  apply List.ext_getElem?
  intro k
  simp only [List.getElem?_eraseIdx, afterRemove]
  split_ifs <;> first | rfl | omega

theorem set_insertIdx (gap : Nat) (item next : α) {p : Nat} (hp : p < items.length) :
    (items.insertIdx gap item).set (afterInsert gap 1 p) next =
      (items.set p next).insertIdx gap item := by
  apply List.ext_getElem?
  intro k
  simp only [List.getElem?_set, List.getElem?_insertIdx, List.length_insertIdx, List.length_set,
    afterInsert]
  split_ifs <;> first | rfl | omega

theorem set_eraseIdx (items : List α) (next : α) {p q : Nat} (h : p ≠ q) :
    (items.eraseIdx p).set (afterRemove p 1 q) next = (items.set q next).eraseIdx p := by
  apply List.ext_getElem?
  intro k
  simp only [List.getElem?_set, List.getElem?_eraseIdx, List.length_eraseIdx, afterRemove]
  split_ifs <;> first | rfl | omega

theorem insertIdx_eraseIdx_self {p : Nat} (next : α) (hp : p < items.length) :
    (items.eraseIdx p).insertIdx p next = items.set p next := by
  apply List.ext_getElem?
  intro k
  simp only [List.getElem?_set, List.getElem?_insertIdx, List.getElem?_eraseIdx,
    List.length_eraseIdx]
  split_ifs <;> first | rfl | omega | (congr 1; omega)

/-- The list with the item at `source` taken out and put back so that it ends at `target`. -/
def relocate (source target : Nat) (items : List α) : List α :=
  match items[source]? with
  | some item => (items.eraseIdx source).insertIdx target item
  | none => items

theorem relocate_eq {source target : Nat} {item : α} (h : items[source]? = some item) :
    relocate source target items = (items.eraseIdx source).insertIdx target item := by
  simp only [relocate, h]

theorem length_relocate {source target : Nat} (hs : source < items.length)
    (ht : target < items.length) : (relocate source target items).length = items.length := by
  rw [relocate_eq (List.getElem?_eq_getElem hs), List.length_insertIdx, List.length_eraseIdx,
    if_pos hs, if_pos (by omega)]
  omega

theorem relocate_perm {source target : Nat} (hs : source < items.length)
    (ht : target < items.length) : (relocate source target items).Perm items := by
  rw [relocate_eq (List.getElem?_eq_getElem hs)]
  have hlen : target ≤ (items.eraseIdx source).length := by
    rw [List.length_eraseIdx, if_pos hs]
    omega
  exact (List.perm_insertIdx _ _ hlen).trans (List.getElem_cons_eraseIdx_perm hs)

theorem eraseIdx_relocate {source target p : Nat} {item : α} (h : items[source]? = some item)
    (hp : p < items.length) (hne : p ≠ source) :
    (relocate source target items).eraseIdx (afterMove source target p) =
      ((items.eraseIdx source).eraseIdx (afterRemove source 1 p)).insertIdx
        (afterRemove (afterRemove source 1 p) 1 target) item := by
  have hs : source < items.length := (List.getElem?_eq_some_iff.1 h).1
  have hlen : afterRemove source 1 p < (items.eraseIdx source).length := by
    rw [List.length_eraseIdx, if_pos hs]
    unfold afterRemove
    split_ifs <;> omega
  rw [relocate_eq h, afterMove_of_ne hne, eraseIdx_insertIdx target item hlen]

/-- Where the item at `p` stands after a move. -/
theorem getElem?_relocate {source target p : Nat} (hs : source < items.length)
    (ht : target < items.length) :
    (relocate source target items)[afterMove source target p]? = items[p]? := by
  rw [relocate_eq (List.getElem?_eq_getElem hs)]
  simp only [List.getElem?_insertIdx, List.getElem?_eraseIdx, List.length_eraseIdx, afterMove]
  by_cases hp : p = source
  · subst hp
    rw [if_pos hs, if_pos rfl, if_neg (by omega), if_pos rfl, if_pos (by omega),
      List.getElem?_eq_getElem hs]
  · simp only [if_neg hp]
    split_ifs <;> first | rfl | omega | (congr 1; omega)

/-- The item that stands at `k` after a move. -/
theorem getElem?_relocate' {source target k : Nat} (hs : source < items.length)
    (ht : target < items.length) :
    (relocate source target items)[k]? = items[afterMove target source k]? := by
  rw [← getElem?_relocate hs ht, afterMove_afterMove]

theorem set_relocate {source target p : Nat} (next : α) (hs : source < items.length)
    (ht : target < items.length) :
    (relocate source target items).set (afterMove source target p) next =
      relocate source target (items.set p next) := by
  apply List.ext_getElem?
  intro k
  have hk : afterMove source target p = k ↔ p = afterMove target source k := by
    constructor
    · rintro rfl
      exact (afterMove_afterMove source target p).symm
    · rintro rfl
      exact afterMove_afterMove target source k
  rw [getElem?_relocate' (by simpa using hs) (by simpa using ht), List.getElem?_set,
    List.getElem?_set, getElem?_relocate' hs ht, length_relocate hs ht]
  by_cases h : p = afterMove target source k
  · have hlt : afterMove source target p < items.length ↔ p < items.length := by
      refine ⟨fun hlt => ?_, afterMove_lt hs ht⟩
      rw [← afterMove_afterMove source target p]
      exact afterMove_lt ht hs hlt
    rw [if_pos (hk.2 h), if_pos h]
    simp only [hlt]
  · rw [if_neg (mt hk.1 h), if_neg h]

theorem relocate_relocate {source middle target : Nat} (hs : source < items.length)
    (hm : middle < items.length) :
    relocate middle target (relocate source middle items) = relocate source target items := by
  have hlen : middle ≤ (items.eraseIdx source).length := by
    rw [List.length_eraseIdx, if_pos hs]
    omega
  have hitem : (relocate source middle items)[middle]? = items[source]? := by
    simpa [afterMove_self] using getElem?_relocate (p := source) hs hm
  rw [List.getElem?_eq_getElem hs] at hitem
  rw [relocate_eq hitem, relocate_eq (List.getElem?_eq_getElem hs),
    relocate_eq (List.getElem?_eq_getElem hs), List.eraseIdx_insertIdx_self]

theorem eraseIdx_relocate_self {source target : Nat} (hs : source < items.length) :
    (relocate source target items).eraseIdx target = items.eraseIdx source := by
  rw [relocate_eq (List.getElem?_eq_getElem hs), List.eraseIdx_insertIdx_self]

end CoEdit.Position
