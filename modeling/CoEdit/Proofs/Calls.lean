import CoEdit.Proofs.Client

/-!
# Calls to a control

A control is used by six calls, in any order and with any arguments. `Control.Step` lists everything
that a call can do, together with the state in which it does it, and `Control.step_perform` says that
nothing else happens.

The first use is to see what a refused call leaves behind (`Control.perform_refused`). Everything stays
as it was, except that a batch which does not fit into the queue is gone when it is completed, and that
a failure to reconcile is marked.
-/
namespace CoEdit

/-- A call to a control. -/
inductive Call where
  | submit (operation : Operation)
  | beginBatch
  | completeBatch
  | receive (incoming : Incoming)
  | acknowledge (sequence version : Nat)
  | resynchronize (version : Nat)

/-- What is answered to a call that is not refused. -/
inductive Reply where
  | done
  | sent (outgoing : Option Outgoing)
  | received (operation : Operation)
  | acknowledged (operation : Operation)

namespace Control

/-- Makes a call. -/
def perform (control : Control) : Call → Except ControlError Reply × Control
  | .submit operation => (control.submit operation).map (Except.map .sent) id
  | .beginBatch => control.beginBatch.map (Except.map fun _ => .done) id
  | .completeBatch => control.completeBatch.map (Except.map .sent) id
  | .receive incoming => (control.receive incoming).map (Except.map .received) id
  | .acknowledge sequence version =>
      (control.acknowledge sequence version).map (Except.map .acknowledged) id
  | .resynchronize version => (.ok .done, control.resynchronize version)

/-- The control after one call after the other. -/
def after (control : Control) : List Call → Control
  | [] => control
  | call :: rest => (control.perform call).2.after rest

/-- Why a call is refused with nothing done. -/
inductive Refuses (control : Control) : Call → ControlError → Prop
  | submitStalled {operation : Operation} (stalled : control.resyncRequired = true) :
      Refuses control (.submit operation) .resyncRequired
  | submitFull {operation : Operation} (clear : control.resyncRequired = false)
      (batch : control.batch = none) (full : ¬control.HasRoom) :
      Refuses control (.submit operation) (.queueFull control.config.maxPending)
  | alreadyOpen {edits : List Edit} (batch : control.batch = some edits) :
      Refuses control .beginBatch .batchAlreadyOpen
  | notOpen (batch : control.batch = none) : Refuses control .completeBatch .noBatchOpen
  | receiveStalled {incoming : Incoming} (stalled : control.resyncRequired = true) :
      Refuses control (.receive incoming) .resyncRequired
  | inProgress {incoming : Incoming} {edits : List Edit} (clear : control.resyncRequired = false)
      (batch : control.batch = some edits) : Refuses control (.receive incoming) .batchInProgress
  | receiveMismatch {incoming : Incoming} (clear : control.resyncRequired = false)
      (batch : control.batch = none) (mismatch : incoming.version ≠ control.contextVersion) :
      Refuses control (.receive incoming)
        (.versionMismatch control.contextVersion incoming.version)
  | unexpected {sequence version : Nat}
      (head : (control.pending.head?.map Prod.fst) ≠ some sequence) :
      Refuses control (.acknowledge sequence version)
        (.unexpectedAcknowledgement sequence (control.pending.head?.map Prod.fst))
  | acknowledgeMismatch {sequence version : Nat}
      (head : (control.pending.head?.map Prod.fst) = some sequence)
      (mismatch : version ≠ control.contextVersion) :
      Refuses control (.acknowledge sequence version)
        (.versionMismatch control.contextVersion version)

/-- Everything that a call can do, with its answer and the state after it. -/
inductive Step (control : Control) : Call → Except ControlError Reply → Control → Prop
  | refused {call : Call} {error : ControlError} (reason : control.Refuses call error) :
      Step control call (.error error) control
  | collected {operation : Operation} {edits : List Edit} (clear : control.resyncRequired = false)
      (batch : control.batch = some edits) :
      Step control (.submit operation) (.ok (.sent none))
        { control with batch := some (edits ++ operation.edits) }
  | enqueued {operation : Operation} (clear : control.resyncRequired = false)
      (batch : control.batch = none) (room : control.HasRoom) :
      Step control (.submit operation)
        (.ok (.sent (some ⟨control.nextSequence, control.contextVersion, operation⟩)))
        { control with
          pending := control.pending ++ [(control.nextSequence, operation)]
          nextSequence := control.nextSequence + 1 }
  | opened (batch : control.batch = none) :
      Step control .beginBatch (.ok .done) { control with batch := some [] }
  | closed (batch : control.batch = some []) :
      Step control .completeBatch (.ok (.sent none)) { control with batch := none }
  /-- A batch is closed and what it has collected is gone. -/
  | lost {edits : List Edit} (batch : control.batch = some edits) (collected : edits ≠ [])
      (full : ¬control.HasRoom) :
      Step control .completeBatch (.error (.queueFull control.config.maxPending))
        { control with batch := none }
  | completed {edits : List Edit} (batch : control.batch = some edits) (collected : edits ≠ [])
      (room : control.HasRoom) :
      Step control .completeBatch
        (.ok (.sent (some ⟨control.nextSequence, control.contextVersion, .compound edits⟩)))
        { control with
          batch := none
          pending := control.pending ++ [(control.nextSequence, .compound edits)]
          nextSequence := control.nextSequence + 1 }
  | failed {incoming : Incoming} {error : TransformError} (clear : control.resyncRequired = false)
      (batch : control.batch = none) (version : incoming.version = control.contextVersion)
      (reconciled : reconcileQueue incoming.operation control.pending = .error error) :
      Step control (.receive incoming) (.error (.transform error))
        { control with resyncRequired := true }
  | received {incoming : Incoming} {operation : Operation} {pending : List (Nat × Operation)}
      (clear : control.resyncRequired = false) (batch : control.batch = none)
      (version : incoming.version = control.contextVersion)
      (reconciled : reconcileQueue incoming.operation control.pending = .ok (operation, pending)) :
      Step control (.receive incoming) (.ok (.received operation))
        { control with pending, contextVersion := control.contextVersion + 1 }
  | acknowledged {sequence : Nat} {operation : Operation} {rest : List (Nat × Operation)}
      (pending : control.pending = (sequence, operation) :: rest) :
      Step control (.acknowledge sequence control.contextVersion) (.ok (.acknowledged operation))
        { control with pending := rest, contextVersion := control.contextVersion + 1 }
  | resynchronized {version : Nat} :
      Step control (.resynchronize version) (.ok .done)
        { control with
          pending := [], batch := none, resyncRequired := false, contextVersion := version }

variable {control next : Control} {call : Call} {answer : Except ControlError Reply}
  {error : ControlError}

theorem enqueue_of_not_hasRoom (h : ¬control.HasRoom) (operation : Operation) :
    control.enqueue operation = (.error (.queueFull control.config.maxPending), control) := by
  rw [enqueue, if_pos (Nat.not_lt.1 h)]

theorem enqueue_eq_of_hasRoom (h : control.HasRoom) (operation : Operation) :
    control.enqueue operation =
      (.ok ⟨control.nextSequence, control.contextVersion, operation⟩,
        { control with
          pending := control.pending ++ [(control.nextSequence, operation)]
          nextSequence := control.nextSequence + 1 }) := by
  rw [enqueue, if_neg (Nat.not_le.2 h)]

theorem step_submit (control : Control) (operation : Operation) :
    control.Step (.submit operation) (control.perform (.submit operation)).1
      (control.perform (.submit operation)).2 := by
  rw [perform, submit]
  rcases control with ⟨config, contextVersion, pending, nextSequence, batch, stalled⟩
  cases stalled with
  | true => exact .refused (.submitStalled rfl)
  | false =>
      cases batch with
      | some edits => exact .collected rfl rfl
      | none =>
          by_cases hroom :
            HasRoom ⟨config, contextVersion, pending, nextSequence, none, false⟩
          · simp only [Bool.false_eq_true, if_false, enqueue_eq_of_hasRoom hroom]
            exact .enqueued rfl rfl hroom
          · simp only [Bool.false_eq_true, if_false, enqueue_of_not_hasRoom hroom]
            exact .refused (.submitFull rfl rfl hroom)

theorem step_completeBatch (control : Control) :
    control.Step .completeBatch (control.perform .completeBatch).1
      (control.perform .completeBatch).2 := by
  rw [perform, completeBatch]
  cases hbatch : control.batch with
  | none => exact .refused (.notOpen hbatch)
  | some edits =>
      cases edits with
      | nil => exact .closed hbatch
      | cons edit edits =>
          by_cases hroom : control.HasRoom
          · have hclosed : HasRoom { control with batch := none } := hroom
            simp only [List.isEmpty_cons, enqueue_eq_of_hasRoom hclosed]
            exact .completed hbatch (List.cons_ne_nil _ _) hroom
          · have hclosed : ¬HasRoom { control with batch := none } := hroom
            simp only [List.isEmpty_cons, enqueue_of_not_hasRoom hclosed]
            exact .lost hbatch (List.cons_ne_nil _ _) hroom

theorem step_receive (control : Control) (incoming : Incoming) :
    control.Step (.receive incoming) (control.perform (.receive incoming)).1
      (control.perform (.receive incoming)).2 := by
  rw [perform, receive]
  rcases control with ⟨config, contextVersion, pending, nextSequence, batch, stalled⟩
  cases stalled with
  | true => exact .refused (.receiveStalled rfl)
  | false =>
      cases batch with
      | some edits => exact .refused (.inProgress rfl rfl)
      | none =>
          by_cases hversion : incoming.version = contextVersion
          · simp only [Bool.false_eq_true, if_false, Option.isSome_none, ne_eq, hversion,
              not_true_eq_false]
            cases hqueue : reconcileQueue incoming.operation pending with
            | error e => exact .failed rfl rfl hversion hqueue
            | ok left => exact .received rfl rfl hversion hqueue
          · simp only [Bool.false_eq_true, if_false, Option.isSome_none, ne_eq, hversion,
              not_false_eq_true, if_true]
            exact .refused (.receiveMismatch rfl rfl hversion)

theorem step_acknowledge (control : Control) (sequence version : Nat) :
    control.Step (.acknowledge sequence version)
      (control.perform (.acknowledge sequence version)).1
      (control.perform (.acknowledge sequence version)).2 := by
  rw [perform, acknowledge]
  rcases control with ⟨config, contextVersion, pending, nextSequence, batch, stalled⟩
  cases pending with
  | nil => exact .refused (.unexpected nofun)
  | cons entry rest =>
      by_cases hhead : entry.1 = sequence
      · subst hhead
        by_cases hversion : version = contextVersion
        · subst hversion
          simp only [ne_eq, not_true_eq_false, if_false]
          exact .acknowledged rfl
        · simp only [ne_eq, not_true_eq_false, if_false, hversion, not_false_eq_true, if_true]
          exact .refused (.acknowledgeMismatch rfl hversion)
      · simp only [ne_eq, hhead, not_false_eq_true, if_true]
        exact .refused (.unexpected fun heq => hhead (Option.some.inj heq))

theorem step_perform (control : Control) (call : Call) :
    control.Step call (control.perform call).1 (control.perform call).2 := by
  cases call with
  | submit operation => exact control.step_submit operation
  | beginBatch =>
      rw [perform, beginBatch]
      cases hbatch : control.batch with
      | some edits => exact .refused (.alreadyOpen hbatch)
      | none => exact .opened hbatch
  | completeBatch => exact control.step_completeBatch
  | receive incoming => exact control.step_receive incoming
  | acknowledge sequence version => exact control.step_acknowledge sequence version
  | resynchronize version => exact .resynchronized

theorem Step.of_perform (h : control.perform call = (answer, next)) :
    control.Step call answer next := by
  have hstep := control.step_perform call
  rw [h] at hstep
  exact hstep

/-- Whether the call completes a batch that has collected something and does not fit into the queue. -/
def Overflows (control : Control) (call : Call) : Prop :=
  call = .completeBatch ∧ (∃ edits, control.batch = some edits ∧ edits ≠ []) ∧ ¬control.HasRoom

/-- What a refused call leaves behind. The mark that the document has to be loaded anew changes only
where reconciling has failed. Everything else stays as it was unless the call overflows the queue by
completing a batch; that batch is closed and what it has collected is gone. -/
theorem perform_refused (h : control.perform call = (.error error, next)) :
    (next.resyncRequired ≠ control.resyncRequired → ∃ e, error = .transform e) ∧
      (¬control.Overflows call →
        next = { control with resyncRequired := next.resyncRequired }) ∧
      (control.Overflows call → error = .queueFull control.config.maxPending ∧
        next = { control with batch := none }) := by
  have hstep := Step.of_perform h
  cases hstep with
  | refused reason =>
      refine ⟨fun hchanged => absurd rfl hchanged, fun _ => rfl, fun hoverflows => ?_⟩
      obtain ⟨rfl, ⟨edits, hbatch, -⟩, -⟩ := hoverflows
      cases reason with
      | notOpen hnone =>
          rw [hnone] at hbatch
          cases hbatch
  | lost hbatch hcollected hfull =>
      refine ⟨fun hchanged => absurd rfl hchanged, fun hfits => ?_, fun _ => ⟨rfl, rfl⟩⟩
      exact absurd ⟨rfl, ⟨_, hbatch, hcollected⟩, hfull⟩ hfits
  | @failed _ e =>
      exact ⟨fun _ => ⟨e, rfl⟩, fun _ => rfl, fun hoverflows => absurd hoverflows.1 nofun⟩

def setText (text : String) : Operation :=
  .discrete ⟨"text", .string (.set text), false⟩

/-- A control that holds one operation in its queue, which is as many as it may, and another one in an
open batch. -/
def crowded : Control :=
  (start ⟨1⟩ 0).after [.submit (setText "a"), .beginBatch, .submit (setText "b")]

theorem perform_refused_crowded :
    ∃ next, crowded.perform .completeBatch = (.error (.queueFull 1), next) ∧
      crowded.Overflows .completeBatch ∧ next = { crowded with batch := none } := by
  have hoverflows : crowded.Overflows .completeBatch :=
    ⟨rfl, ⟨(setText "b").edits, rfl, nofun⟩, (by decide : ¬1 < 1)⟩
  exact ⟨_, rfl, hoverflows, ((perform_refused rfl).2.2 hoverflows).2⟩

/-- An operation that was accepted into a batch disappears because of an error. -/
theorem crowded_loses_batch :
    crowded = (start ⟨1⟩ 0).after [.submit (setText "a"), .beginBatch, .submit (setText "b")] ∧
      crowded.parts = (setText "a").edits ++ (setText "b").edits ∧
      (crowded.perform .completeBatch).1 = .error (.queueFull 1) ∧
      (crowded.perform .completeBatch).2.batch ≠ crowded.batch ∧
      (crowded.perform .completeBatch).2.parts = (setText "a").edits :=
  ⟨rfl, rfl, rfl, nofun, rfl⟩

end Control
end CoEdit
