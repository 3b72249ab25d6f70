import CoEdit.Operation
import CoEdit.Record.Element
import CoEdit.Number

/-!
# Operation records

A change is an object with its kind under `type` and one member for each of its parts, or the list of
the kind and the parts. An edit is always an object: it adds the `id` of the target and whether the
edit is inert, under `noOp`; that may be missing, and is false then. An edit may also give the kind by
its place among the kinds. An operation is an object with the one member `discrete` or `compound`.
Members that no rule names are passed over.

A record may be unreadable, or it may be readable and describe an edit that is refused.
-/
namespace CoEdit

/-- Why a record describes no operation. -/
inductive RecordError where
  | unreadable
  | refused (error : OperationError)
  deriving DecidableEq

def OperationError.message : OperationError → String
  | .nonFiniteNumber kind value =>
      kind.name ++ " carries a non-finite number: " ++ Number.nonFiniteName value
  | .invalidPermutation length =>
      "reorder of " ++ toString length ++ " elements is not a permutation"

def RecordError.ofOption {α : Type} : Option α → Except RecordError α
  | some a => .ok a
  | none => .error .unreadable

namespace Change

/-- The parts of a change. -/
def parts : Change → List (String × Json)
  | .array (.insert index value) => [("index", .ofNat index), ("value", value.toRecord)]
  | .array (.remove index) => [("index", .ofNat index)]
  | .array (.replace index value) => [("index", .ofNat index), ("value", value.toRecord)]
  | .array (.move source target) => [("from", .ofNat source), ("to", .ofNat target)]
  | .array (.reorder order) => [("order", .ofList .ofNat order)]
  | .array (.set values) => [("value", .array (Element.itemsToRecord values))]
  | .string (.insert index text) => [("index", .ofNat index), ("value", .string text)]
  | .string (.remove index text) => [("index", .ofNat index), ("value", .string text)]
  | .string (.set text) => [("value", .string text)]
  | .object (.add prop value) => [("prop", .string prop), ("value", value.toRecord)]
  | .object (.assign prop value) => [("prop", .string prop), ("value", value.toRecord)]
  | .object (.remove prop) => [("prop", .string prop)]
  | .object (.set props) => [("value", .object (Element.propsToRecord props))]
  | .number (.delta amount) => [("value", .ofFloat amount)]
  | .number (.set value) => [("value", .ofFloat value)]
  | .booleanSet value => [("value", .boolean value)]
  | .dateSet millis => [("value", .integer millis)]

def toRecord (change : Change) : Json :=
  .object (("type", .string change.kind.name) :: change.parts)

/-- The change of the given kind that the members of a record describe. -/
def ofParts? (kind : ChangeKind) (members : List (String × Json)) : Option Change :=
  let part (name : String) := Entries.find? name members
  let word? (name : String) := (part name).bind Json.toWord?
  let string? (name : String) := (part name).bind Json.toString?
  let element? := (part "value").bind Element.ofRecord?
  match kind with
  | .arrayInsert => return .array (.insert (← word? "index") (← element?))
  | .arrayRemove => return .array (.remove (← word? "index"))
  | .arrayReplace => return .array (.replace (← word? "index") (← element?))
  | .arrayMove => return .array (.move (← word? "from") (← word? "to"))
  | .arrayReorder => do
      let order ← (part "order").bind Json.toArray?
      return .array (.reorder (← order.mapM Json.toWord?))
  | .arraySet => do
      let values ← (part "value").bind Json.toArray?
      return .array (.set (← Element.itemsOfRecord? values))
  | .stringInsert => return .string (.insert (← word? "index") (← string? "value"))
  | .stringRemove => return .string (.remove (← word? "index") (← string? "value"))
  | .stringSet => return .string (.set (← string? "value"))
  | .objectAdd => return .object (.add (← string? "prop") (← element?))
  | .objectAssign => return .object (.assign (← string? "prop") (← element?))
  | .objectRemove => return .object (.remove (← string? "prop"))
  | .objectSet => do
      let props ← (part "value").bind Json.toObject?
      return .object (.set (← Element.propsOfRecord? props))
  | .numberDelta => return .number (.delta (← (part "value").bind Json.toFloat?))
  | .numberSet => return .number (.set (← (part "value").bind Json.toFloat?))
  | .booleanSet => return .booleanSet (← (part "value").bind Json.toBool?)
  | .dateSet => return .dateSet (← (part "value").bind Json.toSigned?)

def ofRecord? : Json → Option Change
  | .object members => do
      let name ← (Entries.find? "type" members).bind Json.toString?
      ofParts? (← ChangeKind.ofName? name) members
  | .array (.string name :: items) => do
      let kind ← ChangeKind.ofName? name
      ofParts? kind (← (Json.array items).fields? kind.partNames)
  | _ => none

/-- The parts of a change are those that its kind has. -/
theorem names_parts (change : Change) : change.parts.map Prod.fst = change.kind.partNames := by
  cases change with
  | array c => cases c <;> rfl
  | string c => cases c <;> rfl
  | object c => cases c <;> rfl
  | number c => cases c <;> rfl
  | booleanSet => rfl
  | dateSet => rfl

end Change

/-- The kind that an edit gives: its name, or its place among the kinds. -/
def ChangeKind.ofRecord? : Json → Option ChangeKind
  | .string name => ofName? name
  | place => place.toWord?.bind ofIndex?

namespace Edit

def toRecord (edit : Edit) : Json :=
  .object (("id", .string edit.target) :: ("noOp", .boolean edit.inert) ::
    ("type", .string edit.kind.name) :: edit.change.parts)

/-- The parts of the edit that a record describes, whether or not they make an edit. -/
def readRecord? (record : Json) : Option (ElementId × Change × Bool) := do
  let members ← record.toObject?
  let target ← (Entries.find? "id" members).bind Json.toString?
  let inert ← match Entries.find? "noOp" members with
    | none => some false
    | some flag => flag.toBool?
  let kind ← (Entries.find? "type" members).bind ChangeKind.ofRecord?
  return (target, ← Change.ofParts? kind members, inert)

def ofRecord (record : Json) : Except RecordError Edit := do
  let (target, change, inert) ← RecordError.ofOption (readRecord? record)
  match make target change with
  | .ok edit => return edit.withInert inert
  | .error e => throw (.refused e)

end Edit

namespace Operation

def toRecord : Operation → Json
  | .discrete edit => .object [("discrete", edit.toRecord)]
  | .compound edits => .object [("compound", .object [("ops", .ofList Edit.toRecord edits)])]

/-- The operation that a record describes. The first edit that is at fault decides the error. -/
def ofRecord : Json → Except RecordError Operation
  | .object [("discrete", record)] => do
      let edit ← Edit.ofRecord record
      return .discrete edit
  | .object [("compound", record)] => do
      let members ← RecordError.ofOption (record.fields? ["ops"])
      let parts ← RecordError.ofOption ((Entries.find? "ops" members).bind Json.toArray?)
      let edits ← parts.mapM Edit.ofRecord
      return .compound edits
  | _ => throw .unreadable

end Operation
end CoEdit
