import CoEdit.Entries
import CoEdit.Word

/-!
# JSON values

Integers and other numbers are told apart, since an index or a date accepts only the former. The
members of an object keep their order.
-/
namespace CoEdit

inductive Json where
  | null
  | boolean (value : Bool)
  | integer (value : Int)
  | number (value : Float)
  | string (value : String)
  | array (items : List Json)
  | object (members : List (String × Json))

namespace Json

def member? (name : String) : Json → Option Json
  | .object members => Entries.find? name members
  | _ => none

/-- A number of either spelling as a double, rounded to nearest. -/
def toFloat? : Json → Option Float
  | .integer i => some (Float.ofInt i)
  | .number x => some x
  | _ => none

def toWord? : Json → Option Nat
  | .integer i => Word.ofInt? i
  | _ => none

def toSigned? : Json → Option Int
  | .integer i => Word.signed? i
  | _ => none

/-- The members of a record whose parts have the given names, in this order. The record is an object,
which may hold more, or the bare list of its parts, which may end early. -/
def fields? (names : List String) : Json → Option (List (String × Json))
  | .object members => some members
  | .array items => if items.length ≤ names.length then some (names.zip items) else none
  | _ => none

/-- The name that a tag gives: a string, or the only member of an object if it is `null`. -/
def tag? : Json → Option String
  | .string name => some name
  | .object [(name, .null)] => some name
  | _ => none

mutual

/-- How many arrays and objects stand one inside the other at the deepest place. -/
def depth : Json → Nat
  | .array items => depthItems items + 1
  | .object members => depthMembers members + 1
  | _ => 0

def depthItems : List Json → Nat
  | [] => 0
  | item :: rest => max (depth item) (depthItems rest)

def depthMembers : List (String × Json) → Nat
  | [] => 0
  | (_, item) :: rest => max (depth item) (depthMembers rest)

end

def toString? : Json → Option String
  | .string s => some s
  | _ => none

def toBool? : Json → Option Bool
  | .boolean b => some b
  | _ => none

def toArray? : Json → Option (List Json)
  | .array items => some items
  | _ => none

def toObject? : Json → Option (List (String × Json))
  | .object members => some members
  | _ => none

def ofNat (n : Nat) : Json := .integer n

/-- A double; `null` stands for one that is not finite. -/
def ofFloat (x : Float) : Json :=
  if x.isFinite then .number x else .null

/-- `null` stands for what is missing. -/
def ofOption {α : Type} (encode : α → Json) : Option α → Json
  | none => .null
  | some a => encode a

def ofList {α : Type} (encode : α → Json) (items : List α) : Json :=
  .array (items.map encode)

end Json
end CoEdit
