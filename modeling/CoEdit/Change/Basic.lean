import CoEdit.Change.Kind
import CoEdit.Reorder

/-!
# Changes

What an operation does to its target, by the family of the target. Indices into a text and lengths of
texts count Unicode scalar values.
-/
namespace CoEdit

inductive ArrayChange where
  | insert (index : Nat) (value : Element)
  | remove (index : Nat)
  | replace (index : Nat) (value : Element)
  /-- Takes the item at `source` out and puts it back so that it ends at `target`. -/
  | move (source target : Nat)
  /-- The item at place `k` of the result stood at `order[k]` before. -/
  | reorder (order : List Nat)
  | set (values : List Element)

inductive StringChange where
  | insert (index : Nat) (text : String)
  /-- `text` is what goes; its length is the length of the removal. -/
  | remove (index : Nat) (text : String)
  | set (text : String)
  deriving DecidableEq, Repr

inductive ObjectChange where
  /-- Adds a property that is not there yet. -/
  | add (prop : String) (value : Element)
  /-- Overwrites a property that is there. -/
  | assign (prop : String) (value : Element)
  | remove (prop : String)
  | set (props : List (String × Element))

inductive NumberChange where
  | delta (amount : Float)
  | set (value : Float)

/-- A change to one element. -/
inductive Change where
  | array (change : ArrayChange)
  | string (change : StringChange)
  | object (change : ObjectChange)
  | number (change : NumberChange)
  | booleanSet (value : Bool)
  | dateSet (millis : Int)

namespace ArrayChange

def kind : ArrayChange → ChangeKind
  | .insert .. => .arrayInsert
  | .remove .. => .arrayRemove
  | .replace .. => .arrayReplace
  | .move .. => .arrayMove
  | .reorder .. => .arrayReorder
  | .set .. => .arraySet

/-- The elements that the change brings along. -/
def payload : ArrayChange → List Element
  | .insert _ value => [value]
  | .replace _ value => [value]
  | .set values => values
  | _ => []

/-- Whether two changes are the same, with their payloads compared by `Element.agrees`. -/
def agrees : ArrayChange → ArrayChange → Bool
  | .insert i v, .insert j w => i == j && v == w
  | .remove i, .remove j => i == j
  | .replace i v, .replace j w => i == j && v == w
  | .move a b, .move c d => a == c && b == d
  | .reorder o, .reorder p => o == p
  | .set vs, .set ws => Element.agreesItems vs ws
  | _, _ => false

end ArrayChange

namespace StringChange

def kind : StringChange → ChangeKind
  | .insert .. => .stringInsert
  | .remove .. => .stringRemove
  | .set .. => .stringSet

end StringChange

namespace ObjectChange

def kind : ObjectChange → ChangeKind
  | .add .. => .objectAdd
  | .assign .. => .objectAssign
  | .remove .. => .objectRemove
  | .set .. => .objectSet

/-- The elements that the change brings along. -/
def payload : ObjectChange → List Element
  | .add _ value => [value]
  | .assign _ value => [value]
  | .remove _ => []
  | .set props => Entries.values props

def agrees : ObjectChange → ObjectChange → Bool
  | .add p v, .add q w => p == q && v == w
  | .assign p v, .assign q w => p == q && v == w
  | .remove p, .remove q => p == q
  | .set ps, .set qs => Element.sameProps ps qs
  | _, _ => false

end ObjectChange

namespace NumberChange

def kind : NumberChange → ChangeKind
  | .delta .. => .numberDelta
  | .set .. => .numberSet

def amount : NumberChange → Float
  | .delta x => x
  | .set x => x

/-- Whether two changes are the same; numbers compare as numbers. -/
def agrees : NumberChange → NumberChange → Bool
  | .delta x, .delta y => x == y
  | .set x, .set y => x == y
  | _, _ => false

end NumberChange

namespace Change

def kind : Change → ChangeKind
  | .array c => c.kind
  | .string c => c.kind
  | .object c => c.kind
  | .number c => c.kind
  | .booleanSet _ => .booleanSet
  | .dateSet _ => .dateSet

/-- The family of elements that the change fits. -/
def family : Change → Family
  | .array _ => .array
  | .string _ => .string
  | .object _ => .object
  | .number _ => .number
  | .booleanSet _ => .boolean
  | .dateSet _ => .date

theorem family_kind (change : Change) : change.kind.family = change.family := by
  cases change with
  | array c => cases c <;> rfl
  | string c => cases c <;> rfl
  | object c => cases c <;> rfl
  | number c => cases c <;> rfl
  | booleanSet => rfl
  | dateSet => rfl

def payload : Change → List Element
  | .array c => c.payload
  | .object c => c.payload
  | _ => []

def agrees : Change → Change → Bool
  | .array c, .array d => c.agrees d
  | .string c, .string d => c == d
  | .object c, .object d => c.agrees d
  | .number c, .number d => c.agrees d
  | .booleanSet a, .booleanSet b => a == b
  | .dateSet a, .dateSet b => a == b
  | _, _ => false

/-- The first number in the change that is not finite, its own before those of its payload. -/
def firstNonFinite? : Change → Option Float
  | .number c => if c.amount.isFinite then none else some c.amount
  | change => change.payload.findSome? Element.firstNonFinite?

end Change

inductive OperationError where
  | nonFiniteNumber (kind : ChangeKind) (value : Float)
  | invalidPermutation (length : Nat)
  deriving DecidableEq

namespace Change

/-- Rejects numbers that are not finite and reorders that are not legal. -/
def validate (change : Change) : Except OperationError Unit :=
  match change.firstNonFinite?, change with
  | some x, _ => .error (.nonFiniteNumber change.kind x)
  | none, .array (.reorder order) =>
      if Reorder.isPermutation order then .ok () else .error (.invalidPermutation order.length)
  | none, _ => .ok ()

end Change
end CoEdit
