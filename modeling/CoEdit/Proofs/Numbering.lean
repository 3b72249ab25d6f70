import CoEdit.Proofs.Calls
import CoEdit.Proofs.Grid

/-!
# What holds of a control at all times

Whatever calls are made to a control, and with whatever arguments: its queue is numbered without gaps up
to the next number to be given out, and no number is given out twice; the queue never outgrows its
bound; and once the document has to be loaded anew nothing goes out or comes in until it was
(`Control.orderly_after`). The last part rests on the batch, which is not open when reconciling fails
and collects nothing afterwards.
-/
namespace CoEdit

/-- What an answer gives to be sent. -/
def outgoingOf : Except ControlError Reply → Option Outgoing
  | .ok (.sent outgoing) => outgoing
  | _ => none

/-- How far an answer takes a control along the versions of the server. -/
def versionsOf : Except ControlError Reply → Nat
  | .ok (.received _) => 1
  | .ok (.acknowledged _) => 1
  | _ => 0

namespace Control

/-- What is answered to one call after the other. -/
def answers (control : Control) : List Call → List (Except ControlError Reply)
  | [] => []
  | call :: rest => (control.perform call).1 :: (control.perform call).2.answers rest

/-- What one call after the other gives to be sent. -/
def outgoing (control : Control) (calls : List Call) : List Outgoing :=
  (control.answers calls).filterMap outgoingOf

theorem outgoing_cons (control : Control) (call : Call) (rest : List Call) :
    control.outgoing (call :: rest) =
      (outgoingOf (control.perform call).1).toList ++ (control.perform call).2.outgoing rest := by
  rw [outgoing, answers, List.filterMap_cons]
  cases outgoingOf (control.perform call).1 <;> rfl

/-- Whether nothing can go out or come in: the document has to be loaded anew and no batch holds
anything. -/
def Stalled (control : Control) : Prop :=
  control.resyncRequired = true ∧ control.batch.getD [] = []

/-- What holds of a control at all times. -/
structure Orderly (config : ControlConfig) (control : Control) : Prop where
  config_eq : control.config = config
  /-- The queue is numbered without gaps, and what comes next is the next number. -/
  numbered : ∃ first, control.pending.map Prod.fst = List.range' first control.pending.length ∧
    first + control.pending.length = control.nextSequence
  bounded : control.pending.length ≤ config.maxPending
  stalled : control.resyncRequired = true → control.Stalled

theorem orderly_start (config : ControlConfig) (version : Nat) :
    Orderly config (start config version) :=
  ⟨rfl, ⟨0, rfl, rfl⟩, Nat.zero_le _, nofun⟩

variable {config : ControlConfig} {control next : Control} {call : Call}
  {answer : Except ControlError Reply}

theorem Orderly.enqueue (h : Orderly config control) (room : control.HasRoom) {operation : Operation}
    (hconfig : next.config = control.config)
    (hpending : next.pending = control.pending ++ [(control.nextSequence, operation)])
    (hnext : next.nextSequence = control.nextSequence + 1)
    (hstalled : next.resyncRequired = true → next.Stalled) : Orderly config next := by
  obtain ⟨first, hnumbers, hend⟩ := h.numbered
  rw [HasRoom, h.config_eq] at room
  refine ⟨hconfig.trans h.config_eq, ⟨first, ?_, ?_⟩, ?_, hstalled⟩
  · simp [hpending, hnumbers, ← hend, List.range'_concat]
  · rw [hpending, hnext, List.length_append, List.length_singleton, ← Nat.add_assoc, hend]
  · rw [hpending, List.length_append, List.length_singleton]
    exact room

theorem Orderly.rewrite (h : Orderly config control) (clear : control.resyncRequired = false)
    {pending : List (Nat × Operation)} (hplaces : List.Forall₂ KeepsPlace control.pending pending)
    (version : Nat) : Orderly config { control with pending, contextVersion := version } := by
  obtain ⟨first, hnumbers, hend⟩ := h.numbered
  have hlength : pending.length = control.pending.length := hplaces.length_eq.symm
  refine ⟨h.config_eq, ⟨first, ?_, ?_⟩, ?_, fun hstalled => ?_⟩
  · rw [numbers_of_keepsPlace hplaces, hnumbers, hlength]
  · exact hlength ▸ hend
  · exact hlength ▸ h.bounded
  · exact absurd (clear.symm.trans hstalled) Bool.false_ne_true

theorem Orderly.tail (h : Orderly config control) {head : Nat × Operation}
    {rest : List (Nat × Operation)} (hpending : control.pending = head :: rest) (version : Nat) :
    Orderly config { control with pending := rest, contextVersion := version } := by
  obtain ⟨first, hnumbers, hend⟩ := h.numbered
  have hbounded := h.bounded
  rw [hpending, List.length_cons] at hnumbers hend hbounded
  rw [List.range'_succ, List.map_cons] at hnumbers
  refine ⟨h.config_eq, ⟨first + 1, (List.cons.inj hnumbers).2, ?_⟩, Nat.le_of_succ_le hbounded,
    h.stalled⟩
  rw [← hend, Nat.add_assoc, Nat.add_comm 1]

theorem Orderly.step (h : Orderly config control) (hstep : control.Step call answer next) :
    Orderly config next := by
  cases hstep with
  | refused => exact h
  | collected clear _ =>
      refine ⟨h.config_eq, h.numbered, h.bounded, fun hstalled => ?_⟩
      exact absurd (clear.symm.trans hstalled) Bool.false_ne_true
  | enqueued clear _ room =>
      exact h.enqueue room rfl rfl rfl fun hstalled =>
        absurd (clear.symm.trans hstalled) Bool.false_ne_true
  | opened => exact ⟨h.config_eq, h.numbered, h.bounded, fun hstalled => ⟨hstalled, rfl⟩⟩
  | closed => exact ⟨h.config_eq, h.numbered, h.bounded, fun hstalled => ⟨hstalled, rfl⟩⟩
  | lost => exact ⟨h.config_eq, h.numbered, h.bounded, fun hstalled => ⟨hstalled, rfl⟩⟩
  | completed _ _ room => exact h.enqueue room rfl rfl rfl fun hstalled => ⟨hstalled, rfl⟩
  | failed _ batch =>
      exact ⟨h.config_eq, h.numbered, h.bounded, fun _ => ⟨rfl, by simp [batch]⟩⟩
  | received clear _ _ reconciled =>
      exact h.rewrite clear (reconcileQueue_eq_ok_iff.1 reconciled).2.1 _
  | acknowledged pending => exact h.tail pending _
  | resynchronized =>
      exact ⟨h.config_eq, ⟨control.nextSequence, rfl, rfl⟩, Nat.zero_le _, nofun⟩

/-- Any number of calls. -/
theorem Orderly.after (h : Orderly config control) (calls : List Call) :
    Orderly config (control.after calls) := by
  induction calls generalizing control with
  | nil => exact h
  | cons call rest ih => exact ih (h.step (control.step_perform call))

/-! ## Numbers and versions -/

theorem Step.sequences (hstep : control.Step call answer next) :
    (outgoingOf answer).toList.map Outgoing.sequence =
      List.range' control.nextSequence (next.nextSequence - control.nextSequence) ∧
      control.nextSequence ≤ next.nextSequence := by
  cases hstep <;> simp [outgoingOf]

/-- Numbers are given out in order, each of them once. -/
theorem outgoing_sequences (control : Control) (calls : List Call) :
    (control.outgoing calls).map Outgoing.sequence =
        List.range' control.nextSequence
          ((control.after calls).nextSequence - control.nextSequence) ∧
      control.nextSequence ≤ (control.after calls).nextSequence := by
  induction calls generalizing control with
  | nil => simp [outgoing, answers, Control.after]
  | cons call rest ih =>
      obtain ⟨hfirst, hle⟩ := (control.step_perform call).sequences
      obtain ⟨hrest, hle'⟩ := ih (control.perform call).2
      rw [outgoing_cons, List.map_append, hfirst, hrest, Control.after]
      refine ⟨?_, hle.trans hle'⟩
      have hsplit := List.range'_append_1 (s := control.nextSequence)
        (m := (control.perform call).2.nextSequence - control.nextSequence)
        (n := ((control.perform call).2.after rest).nextSequence -
          (control.perform call).2.nextSequence)
      rw [Nat.add_sub_cancel' hle] at hsplit
      rw [hsplit]
      congr 1
      omega

/-- The version that a control has reached after a call that was answered in this way. -/
def reaches (control : Control) (answer : Except ControlError Reply) : Call → Nat
  | .resynchronize version => version
  | _ => control.contextVersion + versionsOf answer

theorem Step.contextVersion_eq (hstep : control.Step call answer next) :
    next.contextVersion = control.reaches answer call := by
  cases hstep with
  | refused reason => cases reason <;> rfl
  | _ => rfl

/-! ## A control that is stalled -/

/-- A failure to reconcile is marked. -/
theorem Step.resyncRequired_eq {e : TransformError}
    (hstep : control.Step call (.error (.transform e)) next) : next.resyncRequired = true := by
  cases hstep with
  | refused reason => cases reason
  | failed => rfl

/-- Until the document is loaded anew nothing goes out or comes in, and a queue only loses what is
acknowledged. -/
theorem Stalled.step (h : control.Stalled) (hstep : control.Step call answer next)
    (hcall : ∀ version, call ≠ .resynchronize version) :
    next.Stalled ∧ outgoingOf answer = none ∧ (∀ operation, answer ≠ .ok (.received operation)) ∧
      next.pending <:+ control.pending := by
  obtain ⟨hstalled, hempty⟩ := h
  cases hstep with
  | refused => exact ⟨⟨hstalled, hempty⟩, rfl, nofun, List.suffix_refl _⟩
  | collected clear => exact absurd (clear.symm.trans hstalled) Bool.false_ne_true
  | enqueued clear => exact absurd (clear.symm.trans hstalled) Bool.false_ne_true
  | opened => exact ⟨⟨hstalled, rfl⟩, rfl, nofun, List.suffix_refl _⟩
  | closed => exact ⟨⟨hstalled, rfl⟩, rfl, nofun, List.suffix_refl _⟩
  | lost batch collected => exact absurd (by simpa [batch] using hempty) collected
  | completed batch collected => exact absurd (by simpa [batch] using hempty) collected
  | failed clear => exact absurd (clear.symm.trans hstalled) Bool.false_ne_true
  | received clear => exact absurd (clear.symm.trans hstalled) Bool.false_ne_true
  | acknowledged pending =>
      refine ⟨⟨hstalled, hempty⟩, rfl, nofun, ?_⟩
      rw [pending]
      exact List.suffix_cons _ _
  | resynchronized => exact absurd rfl (hcall _)

theorem Stalled.after (h : control.Stalled) {calls : List Call}
    (hcalls : ∀ call ∈ calls, ∀ version, call ≠ .resynchronize version) :
    (control.after calls).Stalled ∧ control.outgoing calls = [] ∧
      (∀ operation, .ok (.received operation) ∉ control.answers calls) ∧
      (control.after calls).pending <:+ control.pending := by
  induction calls generalizing control with
  | nil => exact ⟨h, rfl, fun _ => List.not_mem_nil, List.suffix_refl _⟩
  | cons call rest ih =>
      obtain ⟨hcall, hrest⟩ := List.forall_mem_cons.1 hcalls
      obtain ⟨hnext, hnone, hanswer, hqueue⟩ := h.step (control.step_perform call) hcall
      obtain ⟨hlast, hsilent, hanswers, hqueue'⟩ := ih hnext hrest
      refine ⟨hlast, ?_, fun operation hmem => ?_, hqueue'.trans hqueue⟩
      · rw [outgoing_cons, hnone, hsilent]
        rfl
      · rcases List.mem_cons.1 hmem with heq | hmem
        · exact hanswer operation heq.symm
        · exact hanswers operation hmem

/-- What holds of a control at all times, whatever calls were made. The queue is numbered without gaps
up to the next number and within its bound. The numbers given out so far are all those below the next
one, in order, each once. The next call takes the version on by one where it takes or acknowledges an
operation, sets it where the document was loaded anew, and leaves it otherwise. A failure to reconcile
stalls the control, and while it is stalled nothing is sent or received, the queue takes nothing and a
batch holds nothing. -/
theorem orderly_after (config : ControlConfig) (version : Nat) (calls : List Call) :
    let control := (start config version).after calls
    (∃ first, control.pending.map Prod.fst = List.range' first control.pending.length ∧
        first + control.pending.length = control.nextSequence) ∧
      control.pending.length ≤ config.maxPending ∧
      ((start config version).outgoing calls).map Outgoing.sequence =
        List.range control.nextSequence ∧
      (∀ call, (control.perform call).2.contextVersion =
        control.reaches (control.perform call).1 call) ∧
      (∀ call e, (control.perform call).1 = .error (.transform e) →
        (control.perform call).2.resyncRequired = true) ∧
      (control.resyncRequired = true → ∀ more : List Call,
        (∀ call ∈ more, ∀ version, call ≠ .resynchronize version) →
          (control.after more).Stalled ∧ control.outgoing more = [] ∧
            (∀ operation, .ok (.received operation) ∉ control.answers more) ∧
            (control.after more).pending <:+ control.pending) := by
  have horderly := (orderly_start config version).after calls
  refine ⟨horderly.numbered, horderly.bounded, ?_, fun call => ?_, fun call e h => ?_,
    fun hstalled more hmore => (horderly.stalled hstalled).after hmore⟩
  · rw [(outgoing_sequences (start config version) calls).1, List.range_eq_range']
    rfl
  · exact (Control.step_perform _ call).contextVersion_eq
  · have hstep := Control.step_perform ((start config version).after calls) call
    rw [h] at hstep
    exact hstep.resyncRequired_eq

/-- A text is written, and from the server comes an edit that treats it as a list. The two cannot be
reconciled. Then a batch is opened. -/
def derailed : List Call :=
  [.submit (setText "a"), .receive ⟨3, .discrete ⟨"text", .array (.remove 0), false⟩⟩, .beginBatch]

theorem orderly_after_derailed :
    ((start .standard 3).after derailed).resyncRequired = true ∧
      ((start .standard 3).after derailed).nextSequence = 1 ∧
      ((start .standard 3).outgoing derailed).map Outgoing.sequence = [0] ∧
      ((start .standard 3).after derailed).outgoing [.submit (setText "b"), .completeBatch] = [] := by
  have hstalled : ((start .standard 3).after derailed).resyncRequired = true := rfl
  have hmore : ∀ call ∈ [.submit (setText "b"), .completeBatch],
      ∀ version, call ≠ Call.resynchronize version := by
    simp
  obtain ⟨-, -, hnumbers, -, -, hsilent⟩ := orderly_after .standard 3 derailed
  exact ⟨hstalled, rfl, hnumbers, (hsilent hstalled _ hmore).2.1⟩

end Control
end CoEdit
