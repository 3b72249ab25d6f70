import CoEdit.Element.Basic

/-!
# Kinds of change

The closed list of what can be done to one element, in a fixed order, with the name of each kind and
the family of elements it fits.
-/
namespace CoEdit

inductive ChangeKind where
  | arrayInsert | arrayRemove | arrayReplace | arrayMove | arrayReorder | arraySet
  | stringInsert | stringRemove | stringSet
  | objectAdd | objectAssign | objectRemove | objectSet
  | numberDelta | numberSet
  | booleanSet
  | dateSet
  deriving DecidableEq, Repr

namespace ChangeKind

def all : List ChangeKind :=
  [.arrayInsert, .arrayRemove, .arrayReplace, .arrayMove, .arrayReorder, .arraySet,
    .stringInsert, .stringRemove, .stringSet,
    .objectAdd, .objectAssign, .objectRemove, .objectSet,
    .numberDelta, .numberSet, .booleanSet, .dateSet]

/-- The place of a kind in `all`. -/
def index (kind : ChangeKind) : Nat :=
  all.idxOf kind

/-- The name of a kind in records and messages. -/
def name : ChangeKind → String
  | .arrayInsert => "array_insert"
  | .arrayRemove => "array_remove"
  | .arrayReplace => "array_replace"
  | .arrayMove => "array_move"
  | .arrayReorder => "array_reorder"
  | .arraySet => "array_set"
  | .stringInsert => "string_insert"
  | .stringRemove => "string_remove"
  | .stringSet => "string_set"
  | .objectAdd => "object_add_property"
  | .objectAssign => "object_set_property"
  | .objectRemove => "object_remove_property"
  | .objectSet => "object_set"
  | .numberDelta => "number_delta"
  | .numberSet => "number_set"
  | .booleanSet => "boolean_set"
  | .dateSet => "date_set"

def ofName? (name : String) : Option ChangeKind :=
  all.find? fun kind => kind.name == name

def ofIndex? (index : Nat) : Option ChangeKind :=
  all[index]?

/-- The names of the parts of a change of this kind, in order. -/
def partNames : ChangeKind → List String
  | .arrayInsert | .arrayReplace | .stringInsert | .stringRemove => ["index", "value"]
  | .arrayRemove => ["index"]
  | .arrayMove => ["from", "to"]
  | .arrayReorder => ["order"]
  | .objectAdd | .objectAssign => ["prop", "value"]
  | .objectRemove => ["prop"]
  | .arraySet | .stringSet | .objectSet | .numberDelta | .numberSet | .booleanSet | .dateSet => ["value"]

/-- The family of elements that a kind fits. -/
def family : ChangeKind → Family
  | .arrayInsert | .arrayRemove | .arrayReplace | .arrayMove | .arrayReorder | .arraySet => .array
  | .stringInsert | .stringRemove | .stringSet => .string
  | .objectAdd | .objectAssign | .objectRemove | .objectSet => .object
  | .numberDelta | .numberSet => .number
  | .booleanSet => .boolean
  | .dateSet => .date

/-- Whether a kind replaces the whole value. -/
def isWhole : ChangeKind → Bool
  | .arraySet | .stringSet | .objectSet | .numberSet | .booleanSet | .dateSet => true
  | _ => false

theorem ofName?_name (kind : ChangeKind) : ofName? kind.name = some kind := by
  cases kind <;> decide

end ChangeKind
end CoEdit
