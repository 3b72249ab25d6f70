/-!
# Reorders

A reorder of a sequence lists, for every place of the result, the index that its item had before. It
is legal if it lists every index below its length exactly once.
-/
namespace CoEdit.Reorder

/-- Every index below the length of `order` occurs in it exactly once. By counting it is enough that
each entry is below the length and none is repeated. -/
def isPermutation (order : List Nat) : Bool :=
  order.all (· < order.length) && decide order.Nodup

/-- Where the item that stood at `p` stands in the result. A position at or past the end is a gap and
stays. -/
def follow (order : List Nat) (p : Nat) : Nat :=
  if p < order.length then order.idxOf p else p

/-- The reorder that undoes `order`. -/
def inverse (order : List Nat) : List Nat :=
  (List.range order.length).map (fun i => order.idxOf i)

/-- The items in the listed order. -/
def permute {α : Type} (order : List Nat) (items : List α) : List α :=
  order.filterMap fun k => items[k]?

/-- Where `positions` stand after the reorder; none if `order` is not legal. -/
def followAll? (order positions : List Nat) : Option (List Nat) :=
  if isPermutation order then some (positions.map (follow order)) else none

theorem isPermutation_iff (order : List Nat) :
    isPermutation order = true ↔ (∀ i ∈ order, i < order.length) ∧ order.Nodup := by
  simp [isPermutation]

@[simp] theorem length_inverse (order : List Nat) : (inverse order).length = order.length := by
  simp [inverse]

theorem getElem?_inverse {order : List Nat} {p : Nat} (h : p < order.length) :
    (inverse order)[p]? = some (follow order p) := by
  simp [inverse, follow, h]

end CoEdit.Reorder
