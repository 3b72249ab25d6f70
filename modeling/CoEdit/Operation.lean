import CoEdit.Change.Basic

/-!
# Operations

An edit is one change aimed at one element. An edit that lost its purpose to a concurrent one stays
in place but is inert: it changes nothing and nothing is reconciled with it. An operation is one edit
or a list of edits that stand or fall together.
-/
namespace CoEdit

/-- A change to the element with id `target`. -/
structure Edit where
  target : ElementId
  change : Change
  /-- Whether the edit has nothing left to do. -/
  inert : Bool

/-- One edit, or several as a unit. -/
inductive Operation where
  | discrete (edit : Edit)
  | compound (edits : List Edit)

namespace Edit

def kind (edit : Edit) : ChangeKind :=
  edit.change.kind

/-- An edit that has not been reconciled with anything yet. -/
def make (target : ElementId) (change : Change) : Except OperationError Edit :=
  match change.validate with
  | .ok () => .ok ⟨target, change, false⟩
  | .error e => .error e

def withInert (edit : Edit) (inert : Bool) : Edit :=
  { edit with inert }

/-- The edit with nothing left to do. -/
def asInert (edit : Edit) : Edit :=
  edit.withInert true

/-- The edit with another change. -/
def withChange (edit : Edit) (change : Change) : Edit :=
  { edit with change }

/-- Whether two edits are the same, with their changes compared by `Change.agrees`. -/
def agrees (e f : Edit) : Bool :=
  e.target == f.target && e.inert == f.inert && e.change.agrees f.change

end Edit

namespace Operation

def edits : Operation → List Edit
  | .discrete edit => [edit]
  | .compound edits => edits

/-- `edits` in the shape of `operation`: a single edit stays one. -/
def reshape (operation : Operation) (edits : List Edit) : Operation :=
  match operation, edits with
  | .discrete _, [edit] => .discrete edit
  | _, edits => .compound edits

@[simp] theorem edits_reshape (operation : Operation) (es : List Edit) :
    (operation.reshape es).edits = es := by
  unfold reshape
  split <;> rfl

end Operation
end CoEdit
