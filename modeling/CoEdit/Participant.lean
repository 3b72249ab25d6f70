import CoEdit.Document.Apply
import CoEdit.Control
import CoEdit.Reference

/-!
# Participants

A participant edits its own copy of a document, keeps the copy in step with the server through its
control, and carries references along with every operation that is applied.
-/
namespace CoEdit

/-- One copy of a document with what belongs to it. -/
structure Participant where
  document : Document
  control : Control
  /-- Each reference, or nothing once it is obsolete. -/
  references : List (Option Reference)

namespace Participant

/-- What becomes of a reference when `operation` was applied and `detached` left the document. An
error leaves the reference as it was. -/
def carry (operation : Operation) (detached : List ElementId) (reference : Reference) :
    Option Reference × Option TransformError :=
  match reference.follow operation with
  | .error e => (some reference, some e)
  | .ok .obsolete => (none, none)
  | .ok (.updated moved) =>
      match moved.prune detached with
      | .obsolete => (none, none)
      | .updated kept => (some kept, none)

/-- Carries all references along and lists the errors in order. -/
def carryAll (operation : Operation) (applied : List Applied) (references : List (Option Reference)) :
    List (Option Reference) × List TransformError :=
  let detached := applied.flatMap Applied.detached
  let carried := references.map fun reference =>
    match reference with
    | none => (none, none)
    | some reference => carry operation detached reference
  (carried.map Prod.fst, carried.filterMap Prod.snd)

structure Edited where
  applied : List Applied
  sent : Except ControlError (Option Outgoing)
  referenceErrors : List TransformError

/-- Edits the local copy and hands the operation to the control. An operation that the document
refuses goes no further. -/
def edit (participant : Participant) (operation : Operation) (build : Build := .checked) :
    Result DocumentError Edited × Participant :=
  match participant.document.apply operation build with
  | (.error e, document) => (.error e, { participant with document })
  | (.overflow, document) => (.overflow, { participant with document })
  | (.ok applied, document) =>
      let (references, errors) := carryAll operation applied participant.references
      let (sent, control) := participant.control.submit operation
      (.ok ⟨applied, sent, errors⟩, ⟨document, control, references⟩)

/-- Why an operation from the server was not taken. -/
inductive ReceiveError where
  | control (error : ControlError)
  | document (error : DocumentError)
  deriving DecidableEq

/-- What an operation from the server led to. -/
structure Received where
  operation : Operation
  applied : List Applied
  referenceErrors : List TransformError

/-- Takes an operation from the server. The control advances before the document is edited. -/
def receive (participant : Participant) (incoming : Incoming) (build : Build := .checked) :
    Result ReceiveError Received × Participant :=
  match participant.control.receive incoming with
  | (.error e, control) => (.error (.control e), { participant with control })
  | (.ok operation, control) =>
      match participant.document.apply operation build with
      | (.error e, document) => (.error (.document e), { participant with document, control })
      | (.overflow, document) => (.overflow, { participant with document, control })
      | (.ok applied, document) =>
          let (references, errors) := carryAll operation applied participant.references
          (.ok ⟨operation, applied, errors⟩, ⟨document, control, references⟩)

end Participant
end CoEdit
