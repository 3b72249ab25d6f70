import CoEdit.Transform.Basic
import CoEdit.Position

/-!
# References

A reference anchors something of a session, such as a cursor or a selection, in a document: at
positions or ranges of its owner, at properties of its owner, or at elements. Edits of the owner move
the anchors along or make the reference obsolete.
-/
namespace CoEdit

/-- What a reference points at. -/
inductive Anchors where
  | positions (positions : List Nat)
  /-- Pairs of start and end. -/
  | ranges (ranges : List (Nat × Nat))
  | properties (names : List String)
  | elements (ids : List ElementId)
  deriving DecidableEq

def Anchors.kindName : Anchors → String
  | .positions _ => "index"
  | .ranges _ => "range"
  | .properties _ => "property"
  | .elements _ => "element"

/-- A reference of one session. -/
structure Reference where
  /-- The element that positions and properties belong to. -/
  owner : Option ElementId
  session : String
  key : String
  anchors : Anchors
  deriving DecidableEq

/-- What becomes of a reference. -/
inductive ReferenceChange where
  | updated (reference : Reference)
  | obsolete
  deriving DecidableEq

namespace Anchors

/-- How a change to a sequence moves a position in it; none for a change that has no such map. -/
def shift? : Change → Option (Nat → Nat)
  | .string (.insert index text) => some (Position.afterInsert index text.length)
  | .string (.remove index text) => some (Position.afterRemove index text.length)
  | .array (.insert index _) => some (Position.afterInsert index 1)
  | .array (.remove index) => some (Position.afterRemove index 1)
  | _ => none

/-- Refuses positions past the end of an array of the given length. -/
def checkWithin (length : Nat) (positions : List Nat) : Except TransformError Unit :=
  match positions.find? (length < ·) with
  | some p => .error (.indexOutOfRange .arrayReorder p length)
  | none => .ok ()

/-- What becomes of positions; none if they are obsolete. A position strictly inside removed text
makes all of them obsolete. -/
def followPositions (change : Change) (positions : List Nat) :
    Except TransformError (Option (List Nat)) :=
  match change with
  | .string (.remove index text) =>
      if positions.any (fun p => index < p && p < index + text.length) then .ok none
      else .ok (some (positions.map (Position.afterRemove index text.length)))
  | .array (.move source target) =>
      .ok (some (positions.map (Position.afterMove source target)))
  | .array (.reorder order) => do
      checkWithin order.length positions
      return Reorder.followAll? order positions
  | change => .ok (some (positions.map ((shift? change).getD fun p => p)))

/-- What becomes of ranges; none if they are obsolete. A range does not survive items changing
places. -/
def followRanges (change : Change) (ranges : List (Nat × Nat)) :
    Except TransformError (Option (List (Nat × Nat))) :=
  match change with
  | .array (.move ..) => .ok none
  | .array (.reorder order) => do
      checkWithin order.length (ranges.map Prod.fst ++ ranges.map Prod.snd)
      return none
  | change =>
      let shift := (shift? change).getD fun p => p
      .ok (some (ranges.map fun r => (shift r.1, shift r.2)))

/-- The listed properties without those that are gone; none if nothing remains. -/
def followProperties (change : Change) (names : List String) : Option (List String) :=
  match change with
  | .object (.remove prop) =>
      let kept := names.filter (· ≠ prop)
      if kept = [] then none else some kept
  | _ => some names

/-- What becomes of anchors in an element that is changed; none if they are obsolete. Only anchors at
elements outlive a change of the whole value. -/
def follow (change : Change) : Anchors → Except TransformError (Option Anchors)
  | .elements ids => .ok (some (.elements ids))
  | .positions ps =>
      if change.kind.isWhole then .ok none
      else (followPositions change ps).map (Option.map .positions)
  | .ranges rs =>
      if change.kind.isWhole then .ok none
      else (followRanges change rs).map (Option.map .ranges)
  | .properties names =>
      if change.kind.isWhole then .ok none
      else .ok ((followProperties change names).map .properties)

end Anchors

namespace Reference

/-- What becomes of a reference when `edits` are applied, first to last. An edit that is inert or
aimed at another element than the owner leaves it alone. -/
def followEdits (reference : Reference) : List Edit → Except TransformError ReferenceChange
  | [] => .ok (.updated reference)
  | edit :: rest =>
      if edit.inert || reference.owner != some edit.target then reference.followEdits rest
      else match Anchors.follow edit.change reference.anchors with
        | .error e => .error e
        | .ok none => .ok .obsolete
        | .ok (some anchors) => { reference with anchors }.followEdits rest

theorem followEdits_append (reference : Reference) (front back : List Edit) :
    reference.followEdits (front ++ back) =
      match reference.followEdits front with
      | .ok (.updated moved) => moved.followEdits back
      | answer => answer := by
  induction front generalizing reference with
  | nil => rfl
  | cons edit rest ih =>
      simp only [List.cons_append, followEdits]
      split
      · exact ih reference
      · split
        · rfl
        · rfl
        · exact ih _

def follow (reference : Reference) (operation : Operation) : Except TransformError ReferenceChange :=
  reference.followEdits operation.edits

/-- What becomes of a reference when elements leave the document. A reference goes with its owner;
anchors at elements go one by one, and the reference with the last of them. -/
def prune (reference : Reference) (detached : List ElementId) : ReferenceChange :=
  if (reference.owner.map (detached.contains ·)).getD false then .obsolete
  else match reference.anchors with
    | .elements ids =>
        let kept := ids.filter (!detached.contains ·)
        if kept = [] then .obsolete else .updated { reference with anchors := .elements kept }
    | _ => .updated reference

end Reference
end CoEdit
