import CoEdit.Path.Basic
import CoEdit.Operation
import CoEdit.Position

/-!
# Paths under edits

An edit of one element moves or drops the elements below it, and so their paths. Given the path of
the element that is edited and the path of another one, `rebase` says what the latter becomes.
-/
namespace CoEdit

/-- What becomes of a path. -/
inductive PathChange where
  | unchanged
  /-- The element is gone. -/
  | obsolete
  | updated (path : Path)
  deriving DecidableEq

namespace ArrayChange

/-- The index of the item at `k` after the change; none if it is gone. -/
def followItem? (change : ArrayChange) (k : Nat) : Option Nat :=
  match change with
  | .insert index _ => some (Position.afterInsert index 1 k)
  | .remove index => if k = index then none else some (Position.afterRemove index 1 k)
  | .replace index _ => if k = index then none else some k
  | .move source target => some (Position.afterMove source target k)
  | .reorder order => some (Reorder.follow order k)
  | .set _ => none

end ArrayChange

namespace Change

/-- What becomes of a step into an element that is changed; none if what it led to is gone. Only the
indices of an array ever turn into others. -/
def followStep? : Change → Path.Step → Option Path.Step
  | .array (.set _), _ => none
  | .object (.set _), _ => none
  | .array c, .index k => (c.followItem? k).map .index
  | .object (.assign prop _), step => if step = .key prop then none else some step
  | .object (.remove prop), step => if step = .key prop then none else some step
  | _, step => some step

end Change

namespace Edit

/-- What becomes of the path `descendant` when the element at `ancestor` is edited. -/
def rebase (edit : Edit) (ancestor descendant : Path) : PathChange :=
  if edit.inert then .unchanged
  else match Path.stepBelow? ancestor descendant with
    | none => .unchanged
    | some step =>
        match edit.change.followStep? step with
        | none => .obsolete
        | some next =>
            if next = step then .unchanged else .updated (descendant.set ancestor.length next)

end Edit
end CoEdit
