import CoEdit.Reference
import CoEdit.Json.Basic

/-!
# Reference records

A reference is an object with its owner, which may be missing or `null`, its session, its key, and its
anchors under `values`: an object with the kind of the anchors and the list of them. Both may also be
given as the list of their parts; the kind is a bare name then.
-/
namespace CoEdit

def rangeToRecord (range : Nat × Nat) : Json :=
  .array [.ofNat range.1, .ofNat range.2]

def rangeOfRecord? : Json → Option (Nat × Nat)
  | .array [low, high] => do return (← low.toWord?, ← high.toWord?)
  | _ => none

namespace Anchors

def values : Anchors → Json
  | .positions ps => .ofList .ofNat ps
  | .ranges rs => .ofList rangeToRecord rs
  | .properties names => .ofList .string names
  | .elements ids => .ofList .string ids

def toRecord (anchors : Anchors) : Json :=
  .object [("kind", .string anchors.kindName), ("values", anchors.values)]

/-- The anchors of the named kind that a list describes. -/
def ofValues? (kind : String) (values : Json) : Option Anchors := do
  let values ← values.toArray?
  match kind with
  | "index" => (values.mapM Json.toWord?).map .positions
  | "range" => (values.mapM rangeOfRecord?).map .ranges
  | "property" => (values.mapM Json.toString?).map .properties
  | "element" => (values.mapM Json.toString?).map .elements
  | _ => none

def ofRecord? : Json → Option Anchors
  | .object members => do
      let kind ← (Entries.find? "kind" members).bind Json.tag?
      ofValues? kind (← Entries.find? "values" members)
  | .array [.string kind, values] => ofValues? kind values
  | _ => none

end Anchors

namespace Reference

def toRecord (reference : Reference) : Json :=
  .object [("owner", .ofOption .string reference.owner), ("session_id", .string reference.session),
    ("key", .string reference.key), ("values", reference.anchors.toRecord)]

def ofRecord? (record : Json) : Option Reference := do
  let members ← record.fields? ["owner", "session_id", "key", "values"]
  let owner ← match Entries.find? "owner" members with
    | none => some none
    | some .null => some none
    | some id => id.toString?.map some
  let session ← (Entries.find? "session_id" members).bind Json.toString?
  let key ← (Entries.find? "key" members).bind Json.toString?
  let anchors ← (Entries.find? "values" members).bind Anchors.ofRecord?
  return ⟨owner, session, key, anchors⟩

end Reference
end CoEdit
