import CoEdit.Transform.Operation

/-!
# Concurrency control

A participant sends its operations to a server that puts the operations of all participants in one
order. Until the server has confirmed an operation it is pending. An operation that arrives from the
server in the meantime is reconciled with everything that is pending: it comes out ready for the local
document, and the pending operations come out ready to follow it.

Every call answers next to the state after it, also when it fails.
-/
namespace CoEdit

structure ControlConfig where
  /-- How many operations may be pending before new ones are refused. -/
  maxPending : Nat
  deriving DecidableEq

def ControlConfig.standard : ControlConfig := ⟨1024⟩

/-- An operation as the server sends it: the one that leads from `version` to the next. -/
structure Incoming where
  version : Nat
  operation : Operation

/-- An operation as it is sent to the server. -/
structure Outgoing where
  sequence : Nat
  /-- The server version that the operation builds on. -/
  contextVersion : Nat
  operation : Operation

/-- Why a control refuses a call. -/
inductive ControlError where
  | versionMismatch (expected actual : Nat)
  | unexpectedAcknowledgement (sequence : Nat) (head : Option Nat)
  | batchAlreadyOpen
  | noBatchOpen
  | batchInProgress
  | queueFull (max : Nat)
  | resyncRequired
  | transform (error : TransformError)
  deriving DecidableEq

def ControlError.message : ControlError → String
  | .versionMismatch expected actual =>
      "expected server version " ++ toString expected ++ ", got " ++ toString actual
  | .unexpectedAcknowledgement sequence head =>
      "acknowledged sequence number " ++ toString sequence ++ " does not match the pending head " ++
        match head with
        | none => "None"
        | some n => "Some(" ++ toString n ++ ")"
  | .batchAlreadyOpen => "a batch is already open"
  | .noBatchOpen => "no batch is open"
  | .batchInProgress => "remote operations cannot be processed while a local batch is open"
  | .queueFull max => "pending queue is full (" ++ toString max ++ " operations)"
  | .resyncRequired => "document requires resynchronization"
  | .transform error => error.message

/-- What a participant has sent and not seen confirmed, and the server version it has reached. -/
structure Control where
  config : ControlConfig
  contextVersion : Nat
  /-- Sequence numbers and operations, oldest first. -/
  pending : List (Nat × Operation)
  nextSequence : Nat
  /-- The edits collected since a batch was opened. -/
  batch : Option (List Edit)
  /-- Whether reconciliation failed, so that the document has to be loaded anew. -/
  resyncRequired : Bool

/-- One operation taken past a queue of pending ones, with the queue adjusted to follow it. -/
def reconcileQueue (incoming : Operation) :
    List (Nat × Operation) → Except TransformError (Operation × List (Nat × Operation))
  | [] => .ok (incoming, [])
  | (sequence, ours) :: rest => do
      let (incoming, adjusted) ← incoming.transform ours
      let (incoming, rest) ← reconcileQueue incoming rest
      return (incoming, (sequence, adjusted) :: rest)

namespace Control

def start (config : ControlConfig) (version : Nat) : Control :=
  ⟨config, version, [], 0, none, false⟩

/-- Puts an operation at the end of the queue and numbers it. -/
def enqueue (control : Control) (operation : Operation) : Except ControlError Outgoing × Control :=
  if control.config.maxPending ≤ control.pending.length then
    (.error (.queueFull control.config.maxPending), control)
  else
    (.ok ⟨control.nextSequence, control.contextVersion, operation⟩,
      { control with
        pending := control.pending ++ [(control.nextSequence, operation)]
        nextSequence := control.nextSequence + 1 })

/-- Takes an operation that was applied locally. While a batch is open it is collected and there is
nothing to send. -/
def submit (control : Control) (operation : Operation) :
    Except ControlError (Option Outgoing) × Control :=
  if control.resyncRequired then (.error .resyncRequired, control)
  else match control.batch with
    | some edits => (.ok none, { control with batch := some (edits ++ operation.edits) })
    | none =>
        let (answer, next) := control.enqueue operation
        (answer.map some, next)

def beginBatch (control : Control) : Except ControlError Unit × Control :=
  match control.batch with
  | some _ => (.error .batchAlreadyOpen, control)
  | none => (.ok (), { control with batch := some [] })

/-- Closes the batch and sends what it collected as one operation; an empty batch sends nothing. The
batch is closed first, whether or not the queue has room. -/
def completeBatch (control : Control) : Except ControlError (Option Outgoing) × Control :=
  match control.batch with
  | none => (.error .noBatchOpen, control)
  | some edits =>
      let closed := { control with batch := none }
      if edits.isEmpty then (.ok none, closed)
      else
        let (answer, next) := closed.enqueue (.compound edits)
        (answer.map some, next)

/-- Takes an operation from the server and answers the one to apply to the local document. A failure
to reconcile leaves everything as it was but for the mark that the document has to be loaded anew. -/
def receive (control : Control) (incoming : Incoming) : Except ControlError Operation × Control :=
  if control.resyncRequired then (.error .resyncRequired, control)
  else if control.batch.isSome then (.error .batchInProgress, control)
  else if incoming.version ≠ control.contextVersion then
    (.error (.versionMismatch control.contextVersion incoming.version), control)
  else match reconcileQueue incoming.operation control.pending with
    | .error e => (.error (.transform e), { control with resyncRequired := true })
    | .ok (operation, pending) =>
        (.ok operation, { control with pending, contextVersion := control.contextVersion + 1 })

/-- Takes the server's word that the oldest pending operation was committed at `version`. -/
def acknowledge (control : Control) (sequence version : Nat) :
    Except ControlError Operation × Control :=
  match control.pending with
  | [] => (.error (.unexpectedAcknowledgement sequence none), control)
  | (head, operation) :: rest =>
      if head ≠ sequence then (.error (.unexpectedAcknowledgement sequence (some head)), control)
      else if version ≠ control.contextVersion then
        (.error (.versionMismatch control.contextVersion version), control)
      else
        (.ok operation,
          { control with pending := rest, contextVersion := control.contextVersion + 1 })

/-- Forgets everything local, after the document was loaded anew at `version`. Sequence numbers go
on. -/
def resynchronize (control : Control) (version : Nat) : Control :=
  { control with
    pending := []
    batch := none
    resyncRequired := false
    contextVersion := version }

end Control
end CoEdit
