import CoEdit.Path.Rebase
import CoEdit.Proofs.Checked.Rules
import CoEdit.Reference

/-!
# Following anchors and paths, step by step

What becomes of a reference or of a path is worked out here with every difference and every access as a step that
may stop. A reference is followed through any edits whatever, also through reorders that are no permutations, since
those are turned away before they are inverted (`follow_eq`). A path is rebased under any legal edit (`rebase_eq`).
Neither the positions of the one nor the indices of the other need to be in range of anything.
-/
namespace CoEdit.Checked

variable {change : Change}

/-! ## References -/

/-- Where positions stand after a reorder, looked up in its inverse; none if the order is not legal. -/
def followAll (order positions : List Nat) : Option (Option (List Nat)) :=
  if Reorder.isPermutation order then do
    let inverse ← Reorder.invert? order
    return some (positions.map fun p => inverse[p]?.getD p)
  else some none

/-- Where a change to a sequence moves a position in it. -/
def shift : Change → Nat → Option Nat
  | .string (.insert index text), p => some (Position.afterInsert index text.length p)
  | .string (.remove index text), p => afterRemove index text.length p
  | .array (.insert index _), p => some (Position.afterInsert index 1 p)
  | .array (.remove index), p => afterRemove index 1 p
  | _, p => some p

def shiftPositions (change : Change) (positions : List Nat) :
    Option (Except TransformError (Option (List Nat))) := do
  let moved ← positions.mapM (shift change)
  return .ok (some moved)

/-- The starts of the ranges and their ends are moved each on their own. -/
def shiftRanges (change : Change) (ranges : List (Nat × Nat)) :
    Option (Except TransformError (Option (List (Nat × Nat)))) := do
  let starts ← (ranges.map Prod.fst).mapM (shift change)
  let ends ← (ranges.map Prod.snd).mapM (shift change)
  return .ok (some (starts.zip ends))

def followPositions (change : Change) (positions : List Nat) :
    Option (Except TransformError (Option (List Nat))) :=
  match change with
  | .string (.remove index text) =>
      if positions.any (fun p => index < p && p < index + text.length) then some (.ok none)
      else shiftPositions change positions
  | .array (.move source target) => do
      let moved ← positions.mapM (afterMove source target)
      return .ok (some moved)
  | .array (.reorder order) =>
      match Anchors.checkWithin order.length positions with
      | .error e => some (.error e)
      | .ok () => (followAll order positions).map .ok
  | change => shiftPositions change positions

def followRanges (change : Change) (ranges : List (Nat × Nat)) :
    Option (Except TransformError (Option (List (Nat × Nat)))) :=
  match change with
  | .array (.move ..) => some (.ok none)
  | .array (.reorder order) =>
      some ((Anchors.checkWithin order.length (ranges.map Prod.fst ++ ranges.map Prod.snd)).map
        fun _ => none)
  | change => shiftRanges change ranges

def followAnchors (change : Change) : Anchors → Option (Except TransformError (Option Anchors))
  | .positions ps =>
      if change.kind.isWhole then some (.ok none)
      else (followPositions change ps).map (Except.map (Option.map .positions))
  | .ranges rs =>
      if change.kind.isWhole then some (.ok none)
      else (followRanges change rs).map (Except.map (Option.map .ranges))
  | anchors => some (anchors.follow change)

def followEdits (reference : Reference) : List Edit → Option (Except TransformError ReferenceChange)
  | [] => some (.ok (.updated reference))
  | edit :: rest =>
      if edit.inert || reference.owner != some edit.target then followEdits reference rest
      else do
        match ← followAnchors edit.change reference.anchors with
        | .error e => return .error e
        | .ok none => return .ok .obsolete
        | .ok (some anchors) => followEdits { reference with anchors } rest

def follow (reference : Reference) (operation : Operation) :
    Option (Except TransformError ReferenceChange) :=
  followEdits reference operation.edits

theorem followAll_eq (order positions : List Nat) :
    followAll order positions = some (Reorder.followAll? order positions) := by
  unfold followAll Reorder.followAll?
  split_ifs with hlegal
  · rw [Reorder.invert?_eq hlegal]
    simp only [Option.bind_eq_bind, Option.bind_some, Reorder.getElem?_inverse_getD]
    rfl
  · rfl

theorem shift_eq (change : Change) (p : Nat) :
    shift change p = some ((Anchors.shift? change).getD (fun p => p) p) := by
  cases change with
  | string c =>
      cases c with
      | remove index text => exact afterRemove_eq index text.length p
      | _ => rfl
  | array c =>
      cases c with
      | remove index => exact afterRemove_eq index 1 p
      | _ => rfl
  | _ => rfl

theorem mapM_shift (change : Change) (positions : List Nat) : positions.mapM (shift change) =
    some (positions.map ((Anchors.shift? change).getD fun p => p)) :=
  mapM_eq_some fun p _ => shift_eq change p

theorem shiftPositions_eq (change : Change) (positions : List Nat) :
    shiftPositions change positions =
      some (.ok (some (positions.map ((Anchors.shift? change).getD fun p => p)))) := by
  rw [shiftPositions, mapM_shift]
  rfl

theorem shiftRanges_eq (change : Change) (ranges : List (Nat × Nat)) :
    let moved := (Anchors.shift? change).getD fun p => p
    shiftRanges change ranges = some (.ok (some (ranges.map fun r => (moved r.1, moved r.2)))) := by
  rw [shiftRanges, mapM_shift, mapM_shift]
  simp only [Option.bind_eq_bind, Option.bind_some, List.map_map, List.zip_map', Function.comp_def]
  rfl

theorem followPositions_eq (change : Change) (positions : List Nat) :
    followPositions change positions = some (Anchors.followPositions change positions) := by
  cases change with
  | string c =>
      cases c with
      | remove index text =>
          rw [followPositions, Anchors.followPositions]
          split_ifs
          · rfl
          · exact shiftPositions_eq _ positions
      | _ => exact shiftPositions_eq _ positions
  | array c =>
      cases c with
      | move source target =>
          rw [followPositions, mapM_eq_some fun p _ => afterMove_eq source target p]
          rfl
      | reorder order =>
          rw [followPositions, Anchors.followPositions, followAll_eq]
          cases Anchors.checkWithin order.length positions <;> rfl
      | _ => exact shiftPositions_eq _ positions
  | _ => exact shiftPositions_eq _ positions

theorem followRanges_eq (change : Change) (ranges : List (Nat × Nat)) :
    followRanges change ranges = some (Anchors.followRanges change ranges) := by
  cases change with
  | array c =>
      cases c with
      | move source target => rfl
      | reorder order =>
          rw [followRanges, Anchors.followRanges]
          cases Anchors.checkWithin order.length (ranges.map Prod.fst ++ ranges.map Prod.snd) <;> rfl
      | _ => exact shiftRanges_eq _ ranges
  | _ => exact shiftRanges_eq _ ranges

theorem followAnchors_eq (change : Change) (anchors : Anchors) :
    followAnchors change anchors = some (anchors.follow change) := by
  cases anchors with
  | positions ps =>
      rw [followAnchors, Anchors.follow]
      split_ifs
      · rfl
      · rw [followPositions_eq]
        rfl
  | ranges rs =>
      rw [followAnchors, Anchors.follow]
      split_ifs
      · rfl
      · rw [followRanges_eq]
        rfl
  | _ => rfl

theorem followEdits_eq (reference : Reference) (edits : List Edit) :
    followEdits reference edits = some (reference.followEdits edits) := by
  induction edits generalizing reference with
  | nil => rfl
  | cons edit rest ih =>
      rw [followEdits, Reference.followEdits]
      split_ifs
      · exact ih reference
      · rw [followAnchors_eq]
        cases reference.anchors.follow edit.change with
        | error e => rfl
        | ok left =>
            cases left with
            | none => rfl
            | some anchors => exact ih _

theorem follow_eq (reference : Reference) (operation : Operation) :
    follow reference operation = some (reference.follow operation) :=
  followEdits_eq reference operation.edits

/-! ## Paths -/

/-- The index of the item at `k` after a change to its array; none if it is gone. -/
def followItem (change : ArrayChange) (k : Nat) : Option (Option Nat) :=
  match change with
  | .insert index _ => some (some (Position.afterInsert index 1 k))
  | .remove index =>
      match compare k index with
      | .lt => some (some k)
      | .eq => some none
      | .gt => (sub k 1).map some
  | .replace index _ => some (if k = index then none else some k)
  | .move source target => (afterMove source target k).map some
  | .reorder order => do
      let inverse ← Reorder.invert? order
      return some (inverse[k]?.getD k)
  | .set _ => some none

/-- What becomes of a step into an element that is changed; none if what it led to is gone. -/
def followStep : Change → Path.Step → Option (Option Path.Step)
  | .array c, .index k => (followItem c k).map (Option.map .index)
  | change, step => some (change.followStep? step)

def rebase (edit : Edit) (ancestor descendant : Path) : Option PathChange :=
  if edit.inert || !Path.isAncestorOf ancestor descendant then some .unchanged
  else do
    let step ← descendant[ancestor.length]?
    match ← followStep edit.change step with
    | none => return .obsolete
    | some next =>
        if next = step then return .unchanged
        else do
          let moved ← writeAt ancestor.length next descendant
          return .updated moved

theorem followItem_eq {change : ArrayChange} (h : change.Lawful) (k : Nat) :
    followItem change k = some (change.followItem? k) := by
  cases change with
  | remove index =>
      rw [followItem, ArrayChange.followItem?, Position.afterRemove]
      rcases lt_trichotomy k index with hlt | rfl | hgt
      · rw [Nat.compare_eq_lt.2 hlt, if_neg (by omega), if_neg (by omega), if_neg (by omega)]
      · rw [Nat.compare_eq_eq.2 rfl, if_pos rfl]
      · rw [Nat.compare_eq_gt.2 hgt, if_neg (by omega), if_pos (by omega)]
        dsimp only
        rw [sub_of_le (by omega), Option.map_some]
  | move source target =>
      rw [followItem, afterMove_eq]
      rfl
  | reorder order =>
      rw [followItem, Reorder.invert?_eq h]
      simp only [Option.bind_eq_bind, Option.bind_some, Reorder.getElem?_inverse_getD]
      rfl
  | _ => rfl

theorem followStep_eq (h : change.Lawful) (step : Path.Step) :
    followStep change step = some (change.followStep? step) := by
  cases change with
  | array c =>
      cases step with
      | index k =>
          rw [followStep, followItem_eq h]
          cases c <;> rfl
      | key name => rfl
  | _ => rfl

theorem rebase_eq {edit : Edit} (h : edit.change.Legal) (ancestor descendant : Path) :
    rebase edit ancestor descendant = some (edit.rebase ancestor descendant) := by
  rw [rebase, Edit.rebase]
  cases edit.inert with
  | true => rfl
  | false =>
      cases habove : Path.isAncestorOf ancestor descendant with
      | false =>
          rw [Path.stepBelow?, habove]
          rfl
      | true =>
          obtain ⟨step, rest, rfl⟩ := (Path.isAncestorOf_iff _ _).1 habove
          have hstep : (ancestor ++ step :: rest)[ancestor.length]? = some step := by simp
          have hlt : ancestor.length < (ancestor ++ step :: rest).length := by simp
          rw [Path.stepBelow?_append, hstep]
          simp only [Bool.false_or, Bool.not_true, Bool.false_eq_true, if_false, Option.bind_eq_bind,
            Option.bind_some, followStep_eq h.lawful]
          cases edit.change.followStep? step with
          | none => rfl
          | some next =>
              dsimp only
              split_ifs
              · rfl
              · rw [writeAt_of_lt hlt]
                rfl

end CoEdit.Checked
