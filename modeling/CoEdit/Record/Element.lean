import CoEdit.Element.Basic
import CoEdit.Json.Basic

/-!
# Element records

An element is an object with its `id`, its `type` and, unless it is `null`, its `value`. Children are
records in turn; the properties of an object keep their order. The type may also be given as a tag
with nothing in it.
-/
namespace CoEdit.Element

mutual

def toRecord : Element → Json
  | .mk id content => .object (("id", .string id) :: contentToRecord content)

/-- The members of a record besides the id. -/
def contentToRecord : Content Element → List (String × Json)
  | .null => [("type", .string "null")]
  | .string s => [("type", .string "string"), ("value", .string s)]
  | .number x => [("type", .string "number"), ("value", .ofFloat x)]
  | .boolean b => [("type", .string "boolean"), ("value", .boolean b)]
  | .date ms => [("type", .string "date"), ("value", .integer ms)]
  | .array items => [("type", .string "array"), ("value", .array (itemsToRecord items))]
  | .object props => [("type", .string "object"), ("value", .object (propsToRecord props))]

def itemsToRecord : List Element → List Json
  | [] => []
  | item :: rest => toRecord item :: itemsToRecord rest

def propsToRecord : List (String × Element) → List (String × Json)
  | [] => []
  | (name, item) :: rest => (name, toRecord item) :: propsToRecord rest

end

/-- A content without children, by the name of its type and its value if there is one. -/
def scalarOfRecord? (typeName : String) (value : Option Json) : Option (Content Element) :=
  match typeName, value with
  | "null", none => some .null
  | "null", some .null => some .null
  | "string", some v => v.toString?.map .string
  | "number", some v => v.toFloat?.map .number
  | "boolean", some v => v.toBool?.map .boolean
  | "date", some v => v.toSigned?.map .date
  | _, _ => none

/-- The name of the type that a tag gives; the only member of an object may also be empty. -/
def typeName? : Json → Option String
  | .object [(name, .object [])] => some name
  | tag => tag.tag?

mutual

def ofRecord? : Json → Option Element
  | .object members => do
      let id ← (Entries.find? "id" members).bind Json.toString?
      let typeName ← (Entries.find? "type" members).bind typeName?
      let content ←
        if typeName = "array" then (arrayValue? members).map .array
        else if typeName = "object" then (objectValue? members).map .object
        else scalarOfRecord? typeName (Entries.find? "value" members)
      return .mk id content
  | _ => none

def arrayValue? : List (String × Json) → Option (List Element)
  | [] => none
  | (name, value) :: rest =>
      if name = "value" then
        match value with
        | .array items => itemsOfRecord? items
        | _ => none
      else arrayValue? rest

def objectValue? : List (String × Json) → Option (List (String × Element))
  | [] => none
  | (name, value) :: rest =>
      if name = "value" then
        match value with
        | .object members => propsOfRecord? members
        | _ => none
      else objectValue? rest

def itemsOfRecord? : List Json → Option (List Element)
  | [] => some []
  | item :: rest => do
      let item ← ofRecord? item
      let rest ← itemsOfRecord? rest
      return item :: rest

def propsOfRecord? : List (String × Json) → Option (List (String × Element))
  | [] => some []
  | (name, item) :: rest => do
      let item ← ofRecord? item
      let rest ← propsOfRecord? rest
      return (name, item) :: rest

end

end CoEdit.Element
