import CoEdit.Element.Basic
import CoEdit.Json.Basic
import CoEdit.Number

/-!
# Elements and plain JSON

Plain JSON knows no ids. Reading it gives every value a fresh id, parents first, from a source that
counts upwards under a stem of its own; writing it drops the ids again. A number is written as an
integer where that loses nothing, a date as its milliseconds.
-/
namespace CoEdit

/-- A source of ids `stem:0`, `stem:1`, and so on. -/
structure IdSource where
  stem : String
  next : Nat
  deriving DecidableEq, Repr

namespace IdSource

def start (stem : String) : IdSource := ⟨stem, 0⟩

def current (source : IdSource) : ElementId :=
  source.stem ++ ":" ++ toString source.next

/-- The source once its next id is taken. -/
def advance (source : IdSource) : IdSource :=
  { source with next := source.next + 1 }

end IdSource

namespace Element

mutual

/-- The element that `value` describes, with the source once its ids are taken. -/
def ofJson (source : IdSource) : Json → Element × IdSource
  | .null => (.mk source.current .null, source.advance)
  | .boolean b => (.mk source.current (.boolean b), source.advance)
  | .integer i => (.mk source.current (.number (Float.ofInt i)), source.advance)
  | .number x => (.mk source.current (.number x), source.advance)
  | .string s => (.mk source.current (.string s), source.advance)
  | .array items =>
      let (items, after) := ofJsonItems source.advance items
      (.mk source.current (.array items), after)
  | .object members =>
      let (props, after) := ofJsonMembers source.advance members
      (.mk source.current (.object props), after)

def ofJsonItems (source : IdSource) : List Json → List Element × IdSource
  | [] => ([], source)
  | item :: rest =>
      let (first, source) := ofJson source item
      let (others, source) := ofJsonItems source rest
      (first :: others, source)

def ofJsonMembers (source : IdSource) :
    List (String × Json) → List (String × Element) × IdSource
  | [] => ([], source)
  | (name, item) :: rest =>
      let (first, source) := ofJson source item
      let (others, source) := ofJsonMembers source rest
      ((name, first) :: others, source)

end

/-- A number in plain JSON: an integer of safe magnitude as such, any other finite number as a
double, and `null` for one that is not finite. -/
def numberToJson (x : Float) : Json :=
  match Number.safeInteger? x with
  | some i => .integer i
  | none => .ofFloat x

mutual

/-- The plain JSON of a tree. -/
def toJson : Element → Json
  | .mk _ content => contentToJson content

def contentToJson : Content Element → Json
  | .null => .null
  | .string s => .string s
  | .number x => numberToJson x
  | .boolean b => .boolean b
  | .date ms => .integer ms
  | .array items => .array (itemsToJson items)
  | .object props => .object (propsToJson props)

def itemsToJson : List Element → List Json
  | [] => []
  | item :: rest => toJson item :: itemsToJson rest

def propsToJson : List (String × Element) → List (String × Json)
  | [] => []
  | (name, item) :: rest => (name, toJson item) :: propsToJson rest

end

end Element
end CoEdit
