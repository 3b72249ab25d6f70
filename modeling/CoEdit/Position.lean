import CoEdit.Word

/-!
# Positions under edits

A position is an offset into a sequence: an element of an array, a character of a text, or the gap
in front of either. The maps below say where a position stands once the sequence was edited.

The maps add exactly. On words they are `afterInsert?` and `afterRemove?`, which agree with them as
long as the sums are words; positions and counts in sequences that a memory holds are less than half
the bound, and so their sums are.
-/
namespace CoEdit.Position

/-- The position after `count` items were put in at `start`; one that stands at `start` moves along. -/
def afterInsert (start count p : Nat) : Nat :=
  if start ≤ p then p + count else p

/-- The position after the `count` items from `start` on were taken out; one inside the span falls
back to `start`. -/
def afterRemove (start count p : Nat) : Nat :=
  if start + count ≤ p then p - count else if start < p then start else p

/-- The position of the item that stood at `p` after the item at `source` was moved to `target`. -/
def afterMove (source target p : Nat) : Nat :=
  if p = source then target
  else
    let rest := if source < p then p - 1 else p
    if target ≤ rest then rest + 1 else rest

theorem afterRemove_afterInsert (start count p : Nat) :
    afterRemove start count (afterInsert start count p) = p := by
  unfold afterRemove afterInsert
  split
  · rw [if_pos (by omega)]
    omega
  · rw [if_neg (by omega), if_neg (by omega)]

theorem afterMove_afterMove (source target p : Nat) :
    afterMove target source (afterMove source target p) = p := by
  unfold afterMove
  by_cases h : p = source
  · simp [h]
  · simp only [if_neg h]
    repeat' split
    all_goals omega

theorem afterInsert_mono (start count : Nat) {p q : Nat} (h : p ≤ q) :
    afterInsert start count p ≤ afterInsert start count q := by
  unfold afterInsert
  repeat' split
  all_goals omega

theorem afterRemove_mono (start count : Nat) {p q : Nat} (h : p ≤ q) :
    afterRemove start count p ≤ afterRemove start count q := by
  unfold afterRemove
  repeat' split
  all_goals omega

/-! ## On words -/

/-- `afterInsert` on words, unless the program stops. -/
def afterInsert? (build : Build) (start count p : Nat) : Option Nat :=
  if start ≤ p then Word.add? build p count else some p

/-- `afterRemove` on words, unless the program stops. The end of the span is a sum even where the
position is in front of the span. -/
def afterRemove? (build : Build) (start count p : Nat) : Option Nat := do
  let stop ← Word.add? build start count
  if stop ≤ p then Word.sub? build p count
  else return if start < p then start else p

end CoEdit.Position
