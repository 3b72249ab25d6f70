import CoEdit.Control
import CoEdit.Record.Operation

/-!
# Control records

The settings of a control and the messages that pass between a participant and the server. Each is
an object with one member for each of its parts, or the list of its parts.
-/
namespace CoEdit

namespace ControlConfig

def toRecord (config : ControlConfig) : Json :=
  .object [("maxPending", .ofNat config.maxPending)]

/-- The settings that a record describes; the standard value stands in for a missing one. -/
def ofRecord? (record : Json) : Option ControlConfig := do
  let members ← record.fields? ["maxPending"]
  match Entries.find? "maxPending" members with
  | none => return .standard
  | some limit => return ⟨← limit.toWord?⟩

end ControlConfig

namespace Incoming

def toRecord (incoming : Incoming) : Json :=
  .object [("version", .ofNat incoming.version), ("operation", incoming.operation.toRecord)]

def ofRecord (record : Json) : Except RecordError Incoming := do
  let members ← RecordError.ofOption (record.fields? ["version", "operation"])
  let version ← RecordError.ofOption ((Entries.find? "version" members).bind Json.toWord?)
  let operation ← RecordError.ofOption (Entries.find? "operation" members)
  return ⟨version, ← Operation.ofRecord operation⟩

end Incoming

namespace Outgoing

def toRecord (outgoing : Outgoing) : Json :=
  .object [("seqNo", .ofNat outgoing.sequence), ("contextVersion", .ofNat outgoing.contextVersion),
    ("operation", outgoing.operation.toRecord)]

def ofRecord (record : Json) : Except RecordError Outgoing := do
  let members ← RecordError.ofOption (record.fields? ["seqNo", "contextVersion", "operation"])
  let sequence ← RecordError.ofOption ((Entries.find? "seqNo" members).bind Json.toWord?)
  let contextVersion ← RecordError.ofOption ((Entries.find? "contextVersion" members).bind Json.toWord?)
  let operation ← RecordError.ofOption (Entries.find? "operation" members)
  return ⟨sequence, contextVersion, ← Operation.ofRecord operation⟩

end Outgoing
end CoEdit
