import CoEdit.Path.Basic
import CoEdit.Json.Basic

/-!
# Path records

A path is a list of steps: an index is an integer, a key is a string, also where it consists of
digits.
-/
namespace CoEdit.Path

def Step.toRecord : Step → Json
  | .index i => .ofNat i
  | .key k => .string k

def Step.ofRecord? : Json → Option Step
  | .string k => some (.key k)
  | record => record.toWord?.map .index

def toRecord (path : Path) : Json :=
  .ofList Step.toRecord path

def ofRecord? (record : Json) : Option Path :=
  record.toArray?.bind fun steps => steps.mapM Step.ofRecord?

end CoEdit.Path
