import CoEdit.Json.Basic
import CoEdit.Number

/-!
# Tagged values

Plain JSON can neither carry a double exactly nor promise to keep the members of an object in order.
Two tags make up for that. `$f64` is the only member of an object that stands for the double with the
given bits; `$obj` is the only member of an object that stands for the object with the listed
name and value pairs, in that order.
-/
namespace CoEdit.Json.Tagged

/-- A list of pairs as the tagged object that has them as members. -/
def ofMembers (members : List (String × Json)) : Json :=
  .object [("$obj", .array (members.map fun m => .array [.string m.1, m.2]))]

/-- The double that sixteen hexadecimal digits stand for; one that is not finite is `null`. -/
def double? (text : String) : Option Json :=
  (Number.ofBitsText? text).map fun x => if x.isFinite then .number x else .null

mutual

/-- Replaces every tagged object, at any depth, by what it stands for. An object that only looks
like a tagged one is left as it is. -/
def resolve : Json → Json
  | .array items => .array (resolveItems items)
  | .object [("$f64", .string bits)] =>
      (double? bits).getD (.object [("$f64", .string bits)])
  | .object [("$obj", .array pairs)] =>
      match resolvePairs [] pairs with
      | some members => .object members
      | none => .object [("$obj", .array (resolveItems pairs))]
  | .object members => .object (resolveMembers members)
  | value => value

def resolveItems : List Json → List Json
  | [] => []
  | item :: rest => resolve item :: resolveItems rest

def resolveMembers : List (String × Json) → List (String × Json)
  | [] => []
  | (name, item) :: rest => (name, resolve item) :: resolveMembers rest

/-- The members that a list of pairs stands for, added to those already `seen`; none if some entry
is no pair. -/
def resolvePairs (seen : List (String × Json)) : List Json → Option (List (String × Json))
  | [] => some seen
  | .array [.string name, item] :: rest => resolvePairs (Entries.put name (resolve item) seen) rest
  | _ :: _ => none

end

mutual

/-- Writes every object, at any depth, in tagged form. -/
def orderAll : Json → Json
  | .array items => .array (orderItems items)
  | .object members => ofMembers (orderMembers members)
  | value => value

def orderItems : List Json → List Json
  | [] => []
  | item :: rest => orderAll item :: orderItems rest

def orderMembers : List (String × Json) → List (String × Json)
  | [] => []
  | (name, item) :: rest => (name, orderAll item) :: orderMembers rest

end

end CoEdit.Json.Tagged
