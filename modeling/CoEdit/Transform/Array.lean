import CoEdit.Transform.Basic
import CoEdit.Position

/-!
# Array rules

A rule is written once for each unordered pair of kinds; the other order swaps its answer. Where two
items land in one gap, the first argument of the rule goes in front.

Positions are computed on their own, apart from what stands there: `insertMove`, `removeMove` and
`moveMove` say where both sides of a pair end up.
-/
namespace CoEdit.ArrayChange

/-- Gap and move after an insertion at gap `i` met a move. The gap is first located in the array
without the moved item; in the moved item's own gap the new item goes in front. -/
def insertMove (i source target : Nat) : Nat × Nat × Nat :=
  let gap := if i ≤ source then i else i - 1
  let source := if source < i then source else source + 1
  if gap ≤ target then (gap, source, target + 1) else (gap + 1, source, target)

/-- Index and move after a removal at `i` met a move of another item. The move is computed as seen
without the removed item. -/
def removeMove (i source target : Nat) : Nat × Nat × Nat :=
  let gap := if i < source then i else i - 1
  (Position.afterMove source target i,
    if source < i then source else source - 1,
    if gap < target then target - 1 else target)

/-- The gap that an item moved from `source` to `target` takes in the array without it and without
the item at `other`. -/
def moveGap (target source other : Nat) : Nat :=
  let other := if other < source then other else other - 1
  if target ≤ other then target else target - 1

/-- Both moves after two moves of different items met. Each moved item takes its gap in the array
without both; in one gap the first goes in front. -/
def moveMove (source₁ target₁ source₂ target₂ : Nat) : (Nat × Nat) × (Nat × Nat) :=
  let gap₁ := moveGap target₁ source₁ source₂
  let gap₂ := moveGap target₂ source₂ source₁
  let ends := if gap₁ ≤ gap₂ then (gap₁, gap₂ + 1) else (gap₁ + 1, gap₂)
  ((Position.afterMove source₂ target₂ source₁, ends.1),
    (Position.afterMove source₁ target₁ source₂, ends.2))

/-- The reorder of an array that gained an item at gap `i`, the item standing at `index` of the
result. -/
def grownOrder (order : List Nat) (i index : Nat) : List Nat :=
  (order.map (Position.afterInsert i 1)).insertIdx index i

/-- The reorder of an array that lost its item at `i`. -/
def shrunkOrder (order : List Nat) (i : Nat) : List Nat :=
  (order.filter (· ≠ i)).map fun o => if i < o then o - 1 else o

/-- An insertion keeps its place in front of the item it was put in front of. -/
def insertReorder (i : Nat) (value : Element) (order : List Nat) : Reconciled ArrayChange :=
  if order.length < i then .error (.indexOutOfRange .arrayInsert i order.length)
  else
    let index := Reorder.follow order i
    .both (.insert index value) (.reorder (grownOrder order i index))

def removeReorder (i : Nat) (order : List Nat) : Reconciled ArrayChange :=
  if order.length ≤ i then .error (.indexOutOfRange .arrayRemove i order.length)
  else .both (.remove (Reorder.follow order i)) (.reorder (shrunkOrder order i))

def replaceReorder (i : Nat) (value : Element) (order : List Nat) : Reconciled ArrayChange :=
  if order.length ≤ i then .error (.indexOutOfRange .arrayReplace i order.length)
  else .both (.replace (Reorder.follow order i) value) (.reorder order)

/-- The reorder wins over a move, whose effect it takes back. -/
def moveReorder (source target : Nat) (order : List Nat) : Reconciled ArrayChange :=
  if order.length ≤ source ∨ order.length ≤ target then
    .error (.indexOutOfRange .arrayMove (max source target) order.length)
  else .secondOnly (.reorder (order.map (Position.afterMove source target)))

/-- The first of two reorders wins. -/
def reorderReorder (order₁ order₂ : List Nat) : Reconciled ArrayChange :=
  if order₁.length ≠ order₂.length then
    .error (.indexOutOfRange .arrayReorder order₁.length order₂.length)
  else if order₁ = order₂ then .neither
  else .firstOnly (.reorder (order₁.map (Reorder.follow order₂)))

def insertRemove (i : Nat) (value : Element) (j : Nat) : Reconciled ArrayChange :=
  if i ≤ j then .both (.insert i value) (.remove (j + 1))
  else .both (.insert (i - 1) value) (.remove j)

def insertReplace (i : Nat) (value : Element) (j : Nat) (next : Element) :
    Reconciled ArrayChange :=
  if i ≤ j then .both (.insert i value) (.replace (j + 1) next)
  else .both (.insert i value) (.replace j next)

/-- A replacement of the removed item puts its value in at the same index. -/
def removeReplace (i j : Nat) (next : Element) : Reconciled ArrayChange :=
  if i < j then .both (.remove i) (.replace (j - 1) next)
  else if i = j then .secondOnly (.insert j next)
  else .both (.remove i) (.replace j next)

def transform : ArrayChange → ArrayChange → Reconciled ArrayChange
  | .set vs, .set ws => .firstWins (Element.agreesItems vs ws) (.set vs)
  | .set vs, _ => .firstOnly (.set vs)
  | _, .set ws => .secondOnly (.set ws)
  | .insert i v, .insert j w =>
      if i ≤ j then .both (.insert i v) (.insert (j + 1) w)
      else .both (.insert (i + 1) v) (.insert j w)
  | .insert i v, .remove j => insertRemove i v j
  | .insert i v, .replace j w => insertReplace i v j w
  | .insert i v, .move source target =>
      let (index, source, target) := insertMove i source target
      .both (.insert index v) (.move source target)
  | .insert i v, .reorder order => insertReorder i v order
  | .remove i, .insert j w => (insertRemove j w i).swap
  | .remove i, .remove j =>
      if i = j then .neither
      else if i < j then .both (.remove i) (.remove (j - 1))
      else .both (.remove (i - 1)) (.remove j)
  | .remove i, .replace j w => removeReplace i j w
  | .remove i, .move source target =>
      if i = source then .firstOnly (.remove target)
      else
        let (index, source, target) := removeMove i source target
        .both (.remove index) (.move source target)
  | .remove i, .reorder order => removeReorder i order
  | .replace i v, .insert j w => (insertReplace j w i v).swap
  | .replace i v, .remove j => (removeReplace j i v).swap
  | .replace i v, .replace j w =>
      if i ≠ j then .both (.replace i v) (.replace j w)
      else .firstWins (v == w) (.replace i v)
  | .replace i v, .move source target =>
      .both (.replace (Position.afterMove source target i) v) (.move source target)
  | .replace i v, .reorder order => replaceReorder i v order
  | .move source target, .insert j w =>
      let (index, source, target) := insertMove j source target
      .both (.move source target) (.insert index w)
  | .move source target, .remove j =>
      if j = source then .secondOnly (.remove target)
      else
        let (index, source, target) := removeMove j source target
        .both (.move source target) (.remove index)
  | .move source target, .replace j w =>
      .both (.move source target) (.replace (Position.afterMove source target j) w)
  | .move source₁ target₁, .move source₂ target₂ =>
      if source₁ = source₂ then
        if target₁ = target₂ then .neither else .firstOnly (.move target₂ target₁)
      else
        let (first, second) := moveMove source₁ target₁ source₂ target₂
        .both (.move first.1 first.2) (.move second.1 second.2)
  | .move source target, .reorder order => moveReorder source target order
  | .reorder order, .insert j w => (insertReorder j w order).swap
  | .reorder order, .remove j => (removeReorder j order).swap
  | .reorder order, .replace j w => (replaceReorder j w order).swap
  | .reorder order, .move source target => (moveReorder source target order).swap
  | .reorder order₁, .reorder order₂ => reorderReorder order₁ order₂

end CoEdit.ArrayChange
