import CoEdit.Proofs.Reorder.Passes
import CoEdit.Proofs.Confluence.View
import CoEdit.Transform.Coverage

/-!
# Rules that may stop

A rule subtracts where a comparison made earlier keeps the difference from being negative, and looks things up by
indices that a check made elsewhere keeps in range. Here the rules are given once more with every difference and
every access as a step that may stop (`CoEdit.Checked`). Legal changes never make one of them stop, whatever
indices they name and whether or not they could have been made to one element, and the answer is that of the rule
(`reconcile_eq`).

Each rule is written here as a program goes about it: a reorder is inverted by writing places into a table, a text
shrinks character by character, and which rule applies is found in a table with a row and a column for each kind.
-/
namespace CoEdit.Checked

/-! ## Choices between a number and a difference -/

variable {a b x : Nat} {c : Prop} [Decidable c]

theorem sub_or_some (h : c → b ≤ a) :
    (if c then sub a b else some x) = some (if c then a - b else x) := by
  split_ifs with hc
  · exact sub_of_le (h hc)
  · rfl

theorem some_or_sub (h : ¬c → b ≤ a) :
    (if c then some x else sub a b) = some (if c then x else a - b) := by
  split_ifs with hc
  · rfl
  · exact sub_of_le (h hc)

/-! ## Positions -/

/-- `Position.afterRemove`, step by step. -/
def afterRemove (start count p : Nat) : Option Nat :=
  if start + count ≤ p then sub p count
  else if start < p then some start
  else some p

def afterMove (source target p : Nat) : Option Nat :=
  if p = source then some target
  else do
    let rest ← (if source < p then sub p 1 else some p)
    return if target ≤ rest then rest + 1 else rest

/-- Where an order puts the item at `i`, looked up in the inverse. -/
def placeOf (order : List Nat) (i : Nat) : Option Nat := do
  let inverse ← Reorder.invert? order
  inverse[i]?

theorem afterRemove_eq (start count p : Nat) :
    afterRemove start count p = some (Position.afterRemove start count p) := by
  unfold afterRemove Position.afterRemove
  split_ifs with h
  · exact sub_of_le (by omega)
  · rfl
  · rfl

theorem afterMove_eq (source target p : Nat) :
    afterMove source target p = some (Position.afterMove source target p) := by
  unfold afterMove Position.afterMove
  by_cases h : p = source
  · rw [if_pos h, if_pos h]
  · rw [if_neg h, if_neg h, sub_or_some fun h => by omega]
    rfl

theorem placeOf_eq {order : List Nat} {i : Nat} (h : Reorder.isPermutation order = true)
    (hi : i < order.length) : placeOf order i = some (Reorder.follow order i) := by
  rw [placeOf, Reorder.invert?_eq h]
  exact Reorder.getElem?_inverse hi

/-! ## Array rules -/

def insertRemove (i : Nat) (value : Element) (j : Nat) : Option (Reconciled ArrayChange) :=
  if i ≤ j then some (.both (.insert i value) (.remove (j + 1)))
  else do
    let index ← sub i 1
    return .both (.insert index value) (.remove j)

def insertMove (i : Nat) (value : Element) (source target : Nat) : Option (Reconciled ArrayChange) := do
  let gap ← (if i ≤ source then some i else sub i 1)
  let source := if source < i then source else source + 1
  let (index, target) := if gap ≤ target then (gap, target + 1) else (gap + 1, target)
  return .both (.insert index value) (.move source target)

def insertReorder (i : Nat) (value : Element) (order : List Nat) : Option (Reconciled ArrayChange) :=
  if order.length < i then some (.error (.indexOutOfRange .arrayInsert i order.length))
  else do
    let index ← (if i = order.length then some order.length else placeOf order i)
    let grown ← insertAt index i (order.map (Position.afterInsert i 1))
    return .both (.insert index value) (.reorder grown)

def removeRemove (i j : Nat) : Option (Reconciled ArrayChange) :=
  if i = j then some .neither
  else if i < j then do
    let index ← sub j 1
    return .both (.remove i) (.remove index)
  else do
    let index ← sub i 1
    return .both (.remove index) (.remove j)

def removeReplace (i j : Nat) (next : Element) : Option (Reconciled ArrayChange) :=
  if i < j then do
    let index ← sub j 1
    return .both (.remove i) (.replace index next)
  else if i = j then some (.secondOnly (.insert j next))
  else some (.both (.remove i) (.replace j next))

def removeMove (i source target : Nat) : Option (Reconciled ArrayChange) :=
  if i = source then some (.firstOnly (.remove target))
  else do
    let index ← afterMove source target i
    let gap ← (if i < source then some i else sub i 1)
    let source ← (if source < i then some source else sub source 1)
    let target ← (if gap < target then sub target 1 else some target)
    return .both (.remove index) (.move source target)

def removeReorder (i : Nat) (order : List Nat) : Option (Reconciled ArrayChange) :=
  if order.length ≤ i then some (.error (.indexOutOfRange .arrayRemove i order.length))
  else do
    let index ← placeOf order i
    let shrunk ← (order.filter (· ≠ i)).mapM fun o => if i < o then sub o 1 else some o
    return .both (.remove index) (.reorder shrunk)

def replaceMove (i : Nat) (value : Element) (source target : Nat) :
    Option (Reconciled ArrayChange) := do
  let index ← afterMove source target i
  return .both (.replace index value) (.move source target)

def replaceReorder (i : Nat) (value : Element) (order : List Nat) :
    Option (Reconciled ArrayChange) :=
  if order.length ≤ i then some (.error (.indexOutOfRange .arrayReplace i order.length))
  else do
    let index ← placeOf order i
    return .both (.replace index value) (.reorder order)

def moveGap (target source other : Nat) : Option Nat := do
  let other ← (if other < source then some other else sub other 1)
  if target ≤ other then some target else sub target 1

def moveMove (source₁ target₁ source₂ target₂ : Nat) : Option (Reconciled ArrayChange) :=
  if source₁ = source₂ then
    if target₁ = target₂ then some .neither else some (.firstOnly (.move target₂ target₁))
  else do
    let gap₁ ← moveGap target₁ source₁ source₂
    let gap₂ ← moveGap target₂ source₂ source₁
    let (end₁, end₂) := if gap₁ ≤ gap₂ then (gap₁, gap₂ + 1) else (gap₁ + 1, gap₂)
    let from₁ ← afterMove source₂ target₂ source₁
    let from₂ ← afterMove source₁ target₁ source₂
    return .both (.move from₁ end₁) (.move from₂ end₂)

def moveReorder (source target : Nat) (order : List Nat) : Option (Reconciled ArrayChange) :=
  if order.length ≤ source ∨ order.length ≤ target then
    some (.error (.indexOutOfRange .arrayMove (max source target) order.length))
  else do
    let moved ← order.mapM (afterMove source target)
    return .secondOnly (.reorder moved)

def reorderReorder (order₁ order₂ : List Nat) : Option (Reconciled ArrayChange) :=
  if order₁.length ≠ order₂.length then
    some (.error (.indexOutOfRange .arrayReorder order₁.length order₂.length))
  else if order₁ = order₂ then some .neither
  else do
    let inverse ← Reorder.invert? order₂
    let followed ← readAll order₁ inverse
    return .firstOnly (.reorder followed)

/-- The rule for two changes to an array. Those that are not listed neither subtract nor look anything up. -/
def arrayRule : ArrayChange → ArrayChange → Option (Reconciled ArrayChange)
  | .insert i v, .remove j => insertRemove i v j
  | .remove i, .insert j w => (insertRemove j w i).map .swap
  | .insert i v, .move source target => insertMove i v source target
  | .move source target, .insert j w => (insertMove j w source target).map .swap
  | .insert i v, .reorder order => insertReorder i v order
  | .reorder order, .insert j w => (insertReorder j w order).map .swap
  | .remove i, .remove j => removeRemove i j
  | .remove i, .replace j w => removeReplace i j w
  | .replace i v, .remove j => (removeReplace j i v).map .swap
  | .remove i, .move source target => removeMove i source target
  | .move source target, .remove j => (removeMove j source target).map .swap
  | .remove i, .reorder order => removeReorder i order
  | .reorder order, .remove j => (removeReorder j order).map .swap
  | .replace i v, .move source target => replaceMove i v source target
  | .move source target, .replace j w => (replaceMove j w source target).map .swap
  | .replace i v, .reorder order => replaceReorder i v order
  | .reorder order, .replace j w => (replaceReorder j w order).map .swap
  | .move source₁ target₁, .move source₂ target₂ => moveMove source₁ target₁ source₂ target₂
  | .move source target, .reorder order => moveReorder source target order
  | .reorder order, .move source target => (moveReorder source target order).map .swap
  | .reorder order₁, .reorder order₂ => reorderReorder order₁ order₂
  | c, d => some (c.transform d)

section ArrayRules

variable {order order₁ order₂ : List Nat}

theorem insertRemove_eq (i : Nat) (value : Element) (j : Nat) :
    insertRemove i value j = some (ArrayChange.insertRemove i value j) := by
  unfold insertRemove ArrayChange.insertRemove
  split_ifs with h
  · rfl
  · rw [sub_of_le (by omega)]
    rfl

theorem insertMove_eq (i : Nat) (value : Element) (source target : Nat) :
    insertMove i value source target =
      some ((ArrayChange.insert i value).transform (.move source target)) := by
  rw [insertMove, some_or_sub fun h => by omega]
  simp only [ArrayChange.transform, ArrayChange.insertMove, Option.bind_eq_bind, Option.bind_some,
    Option.pure_def]
  split_ifs <;> rfl

theorem insertReorder_eq (h : Reorder.isPermutation order = true) (i : Nat) (value : Element) :
    insertReorder i value order = some (ArrayChange.insertReorder i value order) := by
  unfold insertReorder ArrayChange.insertReorder
  by_cases hlt : order.length < i
  · rw [if_pos hlt, if_pos hlt]
  · rw [if_neg hlt, if_neg hlt]
    have hindex : (if i = order.length then some order.length else placeOf order i) =
        some (Reorder.follow order i) := by
      by_cases hi : i = order.length
      · rw [if_pos hi, hi, Reorder.follow_length]
      · rw [if_neg hi, placeOf_eq h (by omega)]
    have hle : Reorder.follow order i ≤ (order.map (Position.afterInsert i 1)).length := by
      rw [List.length_map]
      by_cases hi : i < order.length
      · exact (Reorder.follow_lt h hi).le
      · rw [Reorder.follow, if_neg hi]
        omega
    rw [hindex]
    simp only [Option.bind_eq_bind, Option.bind_some, insertAt_of_le hle]
    rfl

theorem removeRemove_eq (i j : Nat) :
    removeRemove i j = some ((ArrayChange.remove i).transform (.remove j)) := by
  unfold removeRemove
  rw [ArrayChange.transform]
  split_ifs with heq hlt
  · rfl
  · rw [sub_of_le (by omega)]
    rfl
  · rw [sub_of_le (by omega)]
    rfl

theorem removeReplace_eq (i j : Nat) (next : Element) :
    removeReplace i j next = some (ArrayChange.removeReplace i j next) := by
  unfold removeReplace ArrayChange.removeReplace
  split_ifs with hlt
  · rw [sub_of_le (by omega)]
    rfl
  · rfl
  · rfl

theorem removeMove_eq (i source target : Nat) : removeMove i source target =
    some ((ArrayChange.remove i).transform (.move source target)) := by
  unfold removeMove
  rw [ArrayChange.transform]
  by_cases heq : i = source
  · rw [if_pos heq, if_pos heq]
  · rw [if_neg heq, if_neg heq, afterMove_eq, some_or_sub fun h => by omega,
      some_or_sub fun h => by omega]
    simp only [Option.bind_eq_bind, Option.bind_some]
    rw [sub_or_some fun h => by omega]
    rfl

theorem removeReorder_eq (h : Reorder.isPermutation order = true) (i : Nat) :
    removeReorder i order = some (ArrayChange.removeReorder i order) := by
  unfold removeReorder ArrayChange.removeReorder
  split_ifs with hle
  · rfl
  · have hshrunk : ((order.filter (· ≠ i)).mapM fun o => if i < o then sub o 1 else some o) =
        some (ArrayChange.shrunkOrder order i) :=
      mapM_eq_some fun o _ => sub_or_some fun hlt => by omega
    rw [placeOf_eq h (by omega), hshrunk]
    rfl

theorem replaceMove_eq (i : Nat) (value : Element) (source target : Nat) :
    replaceMove i value source target =
      some ((ArrayChange.replace i value).transform (.move source target)) := by
  rw [replaceMove, afterMove_eq]
  rfl

theorem replaceReorder_eq (h : Reorder.isPermutation order = true) (i : Nat) (value : Element) :
    replaceReorder i value order = some (ArrayChange.replaceReorder i value order) := by
  unfold replaceReorder ArrayChange.replaceReorder
  split_ifs with hle
  · rfl
  · rw [placeOf_eq h (by omega)]
    rfl

theorem moveGap_eq {source other : Nat} (target : Nat) (h : other ≠ source) :
    moveGap target source other = some (ArrayChange.moveGap target source other) := by
  rw [moveGap, some_or_sub fun h => by omega]
  exact some_or_sub fun h => by omega

theorem moveMove_eq (source₁ target₁ source₂ target₂ : Nat) :
    moveMove source₁ target₁ source₂ target₂ =
      some ((ArrayChange.move source₁ target₁).transform (.move source₂ target₂)) := by
  unfold moveMove
  rw [ArrayChange.transform]
  split_ifs with heq htargets
  · rfl
  · rfl
  · rw [moveGap_eq target₁ (Ne.symm heq), moveGap_eq target₂ heq, afterMove_eq, afterMove_eq]
    rfl

theorem moveReorder_eq (source target : Nat) (order : List Nat) :
    moveReorder source target order = some (ArrayChange.moveReorder source target order) := by
  unfold moveReorder ArrayChange.moveReorder
  split_ifs with h
  · rfl
  · rw [mapM_eq_some fun o _ => afterMove_eq source target o]
    rfl

theorem reorderReorder_eq (h₁ : Reorder.isPermutation order₁ = true)
    (h₂ : Reorder.isPermutation order₂ = true) :
    reorderReorder order₁ order₂ = some (ArrayChange.reorderReorder order₁ order₂) := by
  unfold reorderReorder ArrayChange.reorderReorder
  split_ifs with hlength heq
  · rfl
  · rfl
  · have hread : readAll order₁ (Reorder.inverse order₂) =
        some (order₁.map (Reorder.follow order₂)) := mapM_eq_some fun o ho =>
      Reorder.getElem?_inverse ((Reorder.lt_of_mem h₁ ho).trans_eq (not_not.1 hlength))
    rw [Reorder.invert?_eq h₂]
    simp only [Option.bind_eq_bind, Option.bind_some, hread]
    rfl

theorem arrayRule_eq {c d : ArrayChange} (hc : c.Lawful) (hd : d.Lawful) :
    arrayRule c d = some (c.transform d) := by
  cases c with
  | insert i v =>
      cases d with
      | remove j => exact insertRemove_eq i v j
      | move source target => exact insertMove_eq i v source target
      | reorder order => exact insertReorder_eq hd i v
      | _ => rfl
  | remove i =>
      cases d with
      | insert j w => rw [arrayRule, insertRemove_eq]; rfl
      | remove j => exact removeRemove_eq i j
      | replace j w => exact removeReplace_eq i j w
      | move source target => exact removeMove_eq i source target
      | reorder order => exact removeReorder_eq hd i
      | set ws => rfl
  | replace i v =>
      cases d with
      | remove j => rw [arrayRule, removeReplace_eq]; rfl
      | move source target => exact replaceMove_eq i v source target
      | reorder order => exact replaceReorder_eq hd i v
      | _ => rfl
  | move source target =>
      cases d with
      | insert j w => rw [arrayRule, insertMove_eq]; rfl
      | remove j =>
          rw [arrayRule, removeMove_eq, ArrayChange.transform, ArrayChange.transform]
          split_ifs <;> rfl
      | replace j w => rw [arrayRule, replaceMove_eq]; rfl
      | move source' target' => exact moveMove_eq source target source' target'
      | reorder order => exact moveReorder_eq source target order
      | set ws => rfl
  | reorder order =>
      cases d with
      | insert j w => rw [arrayRule, insertReorder_eq hc]; rfl
      | remove j => rw [arrayRule, removeReorder_eq hc]; rfl
      | replace j w => rw [arrayRule, replaceReorder_eq hc]; rfl
      | move source target => rw [arrayRule, moveReorder_eq]; rfl
      | reorder order' => exact reorderReorder_eq hc hd
      | set ws => rfl
  | set vs => cases d <;> rfl

end ArrayRules

/-! ## Text rules -/

def insertRemoveText (i : Nat) (piece : String) (j : Nat) (gone : String) :
    Option (Reconciled StringChange) :=
  if i ≤ j then
    some (.both (.insert i piece) (.remove (Position.afterInsert i piece.length j) gone))
  else if j + gone.length ≤ i then do
    let index ← afterRemove j gone.length i
    return .both (.insert index piece) (.remove j gone)
  else do
    let split ← sub i j
    return .secondOnly (.remove j (Text.insert split piece gone))

/-- The characters, counted from `position` on, that stand in front of `low` or not in front of `high`. -/
def charsOutside (low high : Nat) : Nat → List Char → List Char
  | _, [] => []
  | position, ch :: rest =>
      if position < low ∨ high ≤ position then ch :: charsOutside low high (position + 1) rest
      else charsOutside low high (position + 1) rest

def shrink (start : Nat) (text : String) (low high : Nat) : Outcome StringChange :=
  let kept := String.ofList (charsOutside low high start text.toList)
  if kept = "" then .dropped else .becomes (.remove (min start low) kept)

def removeRemoveText (i : Nat) (s : String) (j : Nat) (t : String) : Option (Reconciled StringChange) :=
  if i + s.length ≤ j then do
    let index ← afterRemove i s.length j
    return .both (.remove i s) (.remove index t)
  else if j + t.length ≤ i then do
    let index ← afterRemove j t.length i
    return .both (.remove index s) (.remove j t)
  else some (.ok (shrink i s j (j + t.length), shrink j t i (i + s.length)))

/-- The rule for two changes to a text. Those that are not listed neither subtract nor look anything up. -/
def stringRule : StringChange → StringChange → Option (Reconciled StringChange)
  | .insert i s, .remove j t => insertRemoveText i s j t
  | .remove i s, .insert j t => (insertRemoveText j t i s).map .swap
  | .remove i s, .remove j t => removeRemoveText i s j t
  | c, d => some (c.transform d)

theorem insertRemoveText_eq (i : Nat) (piece : String) (j : Nat) (gone : String) :
    insertRemoveText i piece j gone = some (StringChange.insertRemove i piece j gone) := by
  unfold insertRemoveText StringChange.insertRemove
  split_ifs with hle hge
  · rfl
  · rw [afterRemove_eq]
    rfl
  · rw [sub_of_le (by omega)]
    rfl

theorem charsOutside_eq {low high : Nat} (h : low ≤ high) (position : Nat) (chars : List Char) :
    charsOutside low high position chars =
      chars.take (low - position) ++ chars.drop (high - position) := by
  induction chars generalizing position with
  | nil => simp [charsOutside]
  | cons ch rest ih =>
      have hkept : (position < low ∨ high ≤ position) ↔
          (0 < low - position ∨ high - position = 0) := by omega
      have hle : low - position ≤ high - position := by omega
      -- only the distances to the ends of the span count, and each character takes one off both
      rw [charsOutside, ih, Nat.sub_add_eq, Nat.sub_add_eq, if_congr hkept rfl rfl]
      generalize low - position = before, high - position = upTo at hle ⊢
      cases before with
      | zero => cases upTo <;> simp
      | succ before =>
          cases upTo with
          | zero => omega
          | succ upTo => simp

theorem shrink_eq (start : Nat) (text : String) {low high : Nat} (h : low ≤ high) :
    shrink start text low high = StringChange.shrink start text low high := by
  rw [shrink, charsOutside_eq h]
  rfl

theorem removeRemoveText_eq (i : Nat) (s : String) (j : Nat) (t : String) :
    removeRemoveText i s j t = some ((StringChange.remove i s).transform (.remove j t)) := by
  unfold removeRemoveText
  rw [StringChange.transform]
  split_ifs with hbefore hafter
  · rw [afterRemove_eq]
    rfl
  · rw [afterRemove_eq]
    rfl
  · rw [shrink_eq i s (Nat.le_add_right _ _), shrink_eq j t (Nat.le_add_right _ _)]

theorem stringRule_eq (c d : StringChange) : stringRule c d = some (c.transform d) := by
  cases c with
  | insert i s =>
      cases d with
      | remove j t => exact insertRemoveText_eq i s j t
      | _ => rfl
  | remove i s =>
      cases d with
      | insert j t => rw [stringRule, insertRemoveText_eq]; rfl
      | remove j t => exact removeRemoveText_eq i s j t
      | set t => rfl
  | set s => cases d <;> rfl

/-! ## The table of rules -/

/-- For every pair of kinds, row after row, whether there is a rule. -/
def table : List Bool :=
  ChangeKind.all.flatMap fun first => ChangeKind.all.map fun second => first.reconciles second

def lookUp (first second : ChangeKind) : Option Bool :=
  table[first.index * ChangeKind.all.length + second.index]?

/-- The rule for two changes of one family. Only those for arrays and texts subtract or look anything up. -/
def rule : Change → Change → Option (Reconciled Change)
  | .array c, .array d => (arrayRule c d).map (Reconciled.lift .array)
  | .string c, .string d => (stringRule c d).map (Reconciled.lift .string)
  | c, d => some (c.transform d)

def transform (c d : Change) : Option (Reconciled Change) := do
  let known ← lookUp c.kind d.kind
  if known then rule c d else some (.error (.unsupported c.kind d.kind))

def reconcile (s c : Edit) : Option (Except TransformError (Edit × Edit)) := do
  let answer ← transform s.change c.change
  return answer.map fun outcome => (s.after outcome.1, c.after outcome.2)

theorem lookUp_eq (first second : ChangeKind) :
    lookUp first second = some (first.reconciles second) := by
  cases first <;> cases second <;> rfl

theorem rule_eq {c d : Change} (hc : c.Lawful) (hd : d.Lawful) :
    rule c d = some (c.transform d) := by
  cases c with
  | array c =>
      cases d with
      | array d =>
          rw [rule, arrayRule_eq hc hd]
          rfl
      | _ => rfl
  | string c =>
      cases d with
      | string d =>
          rw [rule, stringRule_eq c d]
          rfl
      | _ => rfl
  | _ => rfl

theorem transform_eq {c d : Change} (hc : c.Lawful) (hd : d.Lawful) :
    transform c d = some (c.transform d) := by
  rw [transform, lookUp_eq]
  cases hknown : c.kind.reconciles d.kind with
  | false => exact congrArg some ((Change.transform_eq_unsupported_iff c d).2 hknown).symm
  | true => exact rule_eq hc hd

/-- Whatever indices two legal edits name, no difference that their rule takes is negative and it finds everything
that it looks up. -/
theorem reconcile_eq {s c : Edit} (hs : s.change.Legal) (hc : c.change.Legal) :
    reconcile s c = some (s.reconcile c) := by
  rw [reconcile, transform_eq hs.lawful hc.lawful]
  rfl

end CoEdit.Checked
