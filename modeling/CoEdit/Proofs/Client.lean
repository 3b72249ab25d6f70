import CoEdit.Proofs.Document.Shows

/-!
# A client beside its server

A client holds a copy of a document and a control. Beside them stands the server's document at the
version that the client has reached, which the client does not see. `Tracks` says how the three belong
together: everything pending leads from what the server shows to what the client shows, and is ready to
be applied by the server. One lemma for each call says that the call keeps it so.

The elements that were ever in use are `known`. What is still to come is not among them and is told by
`base`, the shadow of the document that everything started from.
-/
namespace CoEdit

/-- Everything that the server has not confirmed, in order: the queue and then the open batch. -/
def Control.parts (control : Control) : List Edit :=
  queueEdits control.pending ++ control.batch.getD []

namespace Control

variable {control : Control}

theorem submit_spec {operation : Operation} {sent : Option Outgoing}
    (h : (control.submit operation).1 = .ok sent) :
    control.resyncRequired = false ∧
      (control.submit operation).2.parts = control.parts ++ operation.edits ∧
      (control.submit operation).2.resyncRequired = false := by
  unfold submit at h ⊢
  split_ifs at h ⊢ with hresync
  rw [Bool.not_eq_true] at hresync
  cases hbatch : control.batch with
  | some edits =>
      rw [hbatch] at h
      refine ⟨hresync, ?_, hresync⟩
      simp [parts, hbatch]
  | none =>
      rw [hbatch] at h
      unfold enqueue at h ⊢
      dsimp only at h ⊢
      split_ifs at h ⊢ with hfull
      · cases h
      · refine ⟨hresync, ?_, hresync⟩
        simp [parts, hbatch, queueEdits]

/-- Whether the queue takes another operation. -/
def HasRoom (control : Control) : Prop :=
  control.pending.length < control.config.maxPending

instance : Decidable control.HasRoom :=
  inferInstanceAs (Decidable (control.pending.length < control.config.maxPending))

theorem enqueue_of_hasRoom (h : control.HasRoom) (operation : Operation) :
    ∃ sent, (control.enqueue operation).1 = .ok sent := by
  unfold enqueue
  rw [if_neg (Nat.not_le.2 h)]
  exact ⟨_, rfl⟩

theorem exists_submit (hclear : control.resyncRequired = false)
    (hroom : control.batch = none → control.HasRoom) (operation : Operation) :
    ∃ sent, (control.submit operation).1 = .ok sent := by
  unfold submit
  rw [hclear]
  cases hbatch : control.batch with
  | some edits => exact ⟨_, rfl⟩
  | none =>
      obtain ⟨sent, hsent⟩ := enqueue_of_hasRoom (hroom hbatch) operation
      exact ⟨some sent, by simp [hsent, Except.map]⟩

theorem exists_completeBatch {edits : List Edit} (hbatch : control.batch = some edits)
    (hroom : edits ≠ [] → control.HasRoom) : ∃ sent, control.completeBatch.1 = .ok sent := by
  unfold completeBatch
  rw [hbatch]
  dsimp only
  split_ifs with hempty
  · exact ⟨_, rfl⟩
  · have hclosed : HasRoom { control with batch := none } :=
      hroom fun heq => hempty (List.isEmpty_iff.2 heq)
    obtain ⟨sent, hsent⟩ := enqueue_of_hasRoom hclosed (.compound edits)
    exact ⟨some sent, by simp [hsent, Except.map]⟩

theorem beginBatch_spec (control : Control) :
    control.beginBatch.2.parts = control.parts ∧
      control.beginBatch.2.resyncRequired = control.resyncRequired := by
  unfold beginBatch
  cases hbatch : control.batch with
  | some edits => exact ⟨rfl, rfl⟩
  | none => exact ⟨by simp [parts, hbatch], rfl⟩

theorem completeBatch_spec {sent : Option Outgoing} (h : control.completeBatch.1 = .ok sent) :
    control.completeBatch.2.parts = control.parts ∧
      control.completeBatch.2.resyncRequired = control.resyncRequired := by
  unfold completeBatch at h ⊢
  cases hbatch : control.batch with
  | none =>
      rw [hbatch] at h
      cases h
  | some edits =>
      rw [hbatch] at h
      dsimp only at h ⊢
      split_ifs at h ⊢ with hempty
      · refine ⟨?_, rfl⟩
        simp [parts, hbatch, List.isEmpty_iff.1 hempty]
      · unfold enqueue at h ⊢
        dsimp only at h ⊢
        split_ifs at h ⊢ with hfull
        · cases h
        · refine ⟨?_, rfl⟩
          simp [parts, hbatch, queueEdits, Operation.edits]

/-- What is acknowledged is what comes first. -/
theorem acknowledge_spec {sequence version : Nat} {operation : Operation}
    (h : (control.acknowledge sequence version).1 = .ok operation) :
    ∃ rest, control.pending = (sequence, operation) :: rest ∧ version = control.contextVersion ∧
      (control.acknowledge sequence version).2 =
        { control with pending := rest, contextVersion := control.contextVersion + 1 } := by
  unfold acknowledge at h ⊢
  cases hpending : control.pending with
  | nil =>
      rw [hpending] at h
      cases h
  | cons entry rest =>
      rcases entry with ⟨head, first⟩
      rw [hpending] at h
      dsimp only at h ⊢
      split_ifs at h ⊢ with hhead hversion
      cases h
      rw [not_not] at hhead hversion
      exact ⟨rest, by rw [hhead], hversion, rfl⟩

theorem acknowledge_parts {sequence version : Nat} {operation : Operation}
    (h : (control.acknowledge sequence version).1 = .ok operation) :
    control.parts = operation.edits ++ (control.acknowledge sequence version).2.parts ∧
      (control.acknowledge sequence version).2.resyncRequired = control.resyncRequired := by
  obtain ⟨rest, hpending, -, hcontrol⟩ := acknowledge_spec h
  refine ⟨?_, by rw [hcontrol]⟩
  rw [hcontrol, parts, parts, hpending, queueEdits, List.flatMap_cons, List.append_assoc]
  rfl

theorem receive_eq {incoming : Incoming} {operation : Operation} {pending : List (Nat × Operation)}
    (hresync : control.resyncRequired = false) (hbatch : control.batch = none)
    (hversion : incoming.version = control.contextVersion)
    (hqueue : reconcileQueue incoming.operation control.pending = .ok (operation, pending)) :
    control.receive incoming = (.ok operation,
      { control with pending, contextVersion := control.contextVersion + 1 }) := by
  simp [receive, hresync, hbatch, hversion, hqueue]

end Control

/-- A client, and the server's document at the version that the client has reached. -/
structure Client where
  document : Document
  control : Control
  server : Document

namespace Client
open Document

variable {client : Client} {base before after : Shadow} {known adds : ElementId → Prop}

/-- Whether the edits in force are aimed at known elements. -/
def Aimed (known : ElementId → Prop) (edits : List Edit) : Prop :=
  ∀ edit ∈ edits, edit.inert = false → known edit.target

theorem Aimed.rebased {edits left : List Edit} (h : Aimed known edits)
    (hleft : RebasedAll edits left) : Aimed known left := by
  intro e he hactive
  obtain ⟨original, hmem, hrebased⟩ := hleft.exists_of_mem he
  rw [hrebased.target]
  exact h original hmem (hrebased.active hactive)

theorem Aimed.spares {edits : List Edit} {ids : List ElementId} (h : Aimed known edits)
    (hnew : ∀ id ∈ ids, ¬known id) : Spares ids edits :=
  fun e he hactive hmem => hnew _ hmem (h e he hactive)

/-- What is not known keeps showing what it shows. -/
theorem Aimed.frame {edits : List Edit} (h : Aimed known edits)
    (hafter : before.run? edits = some after) {id : ElementId} (hid : ¬known id) :
    after id = before id := by
  refine Shadow.run?_frame (fun e he hactive heq => ?_) hafter
  rw [← heq] at hid
  exact hid (h e he hactive)

/-- Whether the edits add to no numbers but those described. -/
def Adding (adds : ElementId → Prop) (edits : List Edit) : Prop :=
  ∀ edit ∈ edits, ∀ id, edit.AddsTo id → adds id

theorem Adding.rebased {edits left : List Edit} (h : Adding adds edits)
    (hleft : RebasedAll edits left) : Adding adds left := by
  intro e he id hadds
  obtain ⟨original, hmem, hrebased⟩ := hleft.exists_of_mem he
  exact h original hmem id (hrebased.addsTo hadds)

/-- What is pending leads from what the server shows, `before`, to what the client shows, `after`. -/
structure Tracks (client : Client) (base before after : Shadow) (known adds : ElementId → Prop) :
    Prop where
  server : client.server.Shows before
  document : client.document.Shows after
  root : client.document.root = client.server.root
  run : before.run? client.control.parts = some after
  ready : client.server.Ready before client.control.parts
  numeric : before.Numeric
  knownServer : ∀ id, client.server.contains id = true → known id
  knownDocument : ∀ id, client.document.contains id = true → known id
  aimed : Aimed known client.control.parts
  brought : ∀ id ∈ arrivalIds client.control.parts, known id
  untouched : ∀ id, ¬known id → before id = base id
  adding : Adding adds client.control.parts
  clear : client.control.resyncRequired = false

/-- What edits to come are like: they bring along what is not known, as told by `base`. -/
structure Novel (base : Shadow) (known : ElementId → Prop) (edits : List Edit) : Prop where
  legal : ∀ edit ∈ edits, edit.change.Legal
  nodup : (arrivalIds edits).Nodup
  new : ∀ id ∈ arrivalIds edits, ¬known id
  told : ∀ x ∈ arrivals edits, x.view = base x.id

/-- What is known once the edits have been made as well. -/
def knownAfter (known : ElementId → Prop) (edits : List Edit) (id : ElementId) : Prop :=
  known id ∨ id ∈ arrivalIds edits

theorem knownAfter_nil : knownAfter known [] = known := by
  funext id
  simp [knownAfter, arrivalIds, arrivals]

theorem knownAfter_append (known : ElementId → Prop) (front back : List Edit) :
    knownAfter (knownAfter known front) back = knownAfter known (front ++ back) := by
  funext id
  rw [knownAfter, knownAfter, knownAfter, arrivalIds_append, List.mem_append, or_assoc]

theorem knownAfter_comm (known : ElementId → Prop) (front back : List Edit) :
    knownAfter (knownAfter known front) back = knownAfter (knownAfter known back) front := by
  funext id
  rw [knownAfter, knownAfter, knownAfter, knownAfter, or_right_comm]

theorem knownAfter_rebased (known : ElementId → Prop) {edits left : List Edit}
    (h : RebasedAll edits left) : knownAfter known left = knownAfter known edits := by
  funext id
  rw [knownAfter, knownAfter, h.arrivalIds_eq]

theorem knownAfter_of_gains {doc next : Document} {edits : List Edit}
    (hdoc : ∀ id, doc.contains id = true → known id) (hgains : doc.Gains next (arrivalIds edits)) :
    ∀ id, next.contains id = true → knownAfter known edits id :=
  fun id hid => (hgains id hid).imp_left (hdoc id)

theorem aimed_of_accepts {doc : Document} {edits : List Edit}
    (hdoc : ∀ id, doc.contains id = true → known id)
    (h : ∀ edit ∈ edits, edit.inert = false →
      doc.contains edit.target = true ∨ edit.target ∈ arrivalIds edits) :
    Aimed (knownAfter known edits) edits :=
  fun e he hactive => (h e he hactive).imp_left (hdoc _)

theorem Novel.fresh {doc : Document} {edits : List Edit} (h : Novel base known edits)
    (hdoc : ∀ id, doc.contains id = true → known id) :
    ∀ id ∈ arrivalIds edits, doc.contains id = false := by
  intro id hid
  cases hcontains : doc.contains id with
  | false => rfl
  | true => exact absurd (hdoc id hcontains) (h.new id hid)

theorem Novel.left {front back : List Edit} (h : Novel base known (front ++ back)) :
    Novel base known front := by
  have hnodup := h.nodup
  have hnew := h.new
  rw [arrivalIds_append] at hnodup hnew
  refine ⟨fun e he => h.legal e (List.mem_append_left _ he), (List.nodup_append.1 hnodup).1,
    fun id hid => hnew id (List.mem_append_left _ hid), fun x hx => h.told x ?_⟩
  rw [arrivals_append]
  exact List.mem_append_left _ hx

theorem Novel.right {front back : List Edit} (h : Novel base known (front ++ back)) :
    Novel base (knownAfter known front) back := by
  have hnodup := h.nodup
  have hnew := h.new
  rw [arrivalIds_append] at hnodup hnew
  obtain ⟨-, hback, hapart⟩ := List.nodup_append.1 hnodup
  refine ⟨fun e he => h.legal e (List.mem_append_right _ he), hback, ?_, fun x hx => h.told x ?_⟩
  · rintro id hid (hknown | hfront)
    · exact hnew id (List.mem_append_right _ hid) hknown
    · exact hapart id hfront id hid rfl
  · rw [arrivals_append]
    exact List.mem_append_right _ hx

theorem Novel.brings {doc : Document} {shadow : Shadow} {edits : List Edit}
    (h : Novel base known edits) (hdoc : ∀ id, doc.contains id = true → known id)
    (huntouched : ∀ id, ¬known id → shadow id = base id) : doc.Brings shadow edits := by
  refine ⟨h.legal, h.nodup, h.fresh hdoc, fun x hx => ?_⟩
  rw [huntouched x.id (h.new x.id (List.mem_map_of_mem hx))]
  exact h.told x hx

namespace Tracks

variable (h : client.Tracks base before after known adds)
include h

theorem after_untouched (id : ElementId) (hid : ¬known id) : after id = base id := by
  rw [h.aimed.frame h.run hid]
  exact h.untouched id hid

/-- The server can apply everything that is pending and then agrees with the client. -/
theorem in_step : ∃ next, client.server.Takes (.compound client.control.parts) next ∧
    (next.snapshot == client.document.snapshot) = true := by
  let operation : Operation := .compound client.control.parts
  have hready : client.server.Ready before operation.edits := h.ready
  obtain ⟨next, htakes, hshows, hroot, -⟩ := h.server.takes hready h.run
  refine ⟨next, htakes, hshows.agrees h.document (hroot.trans h.root.symm) ?_⟩
  exact h.numeric.run? h.ready.legal h.run

theorem edit {operation : Operation} {control : Control}
    (hnovel : Novel base known operation.edits) (haccepts : client.document.Accepts operation.edits)
    (hadds : Adding adds operation.edits)
    (hparts : control.parts = client.control.parts ++ operation.edits)
    (hclear : control.resyncRequired = false) :
    ∃ next after', client.document.Takes operation next ∧
      Tracks ⟨next, control, client.server⟩ base before after'
        (knownAfter known operation.edits) adds := by
  have hbrings := hnovel.brings h.knownDocument h.after_untouched
  obtain ⟨hordered, ⟨after', hrun⟩, htargets⟩ := haccepts.exists_run? h.document hbrings
  obtain ⟨next, htakes, hshows, hroot, hgains⟩ := h.document.takes ⟨hbrings, hordered⟩ hrun
  refine ⟨next, after', htakes, ?_⟩
  refine ⟨h.server, hshows, hroot.trans h.root, ?_, ?_, h.numeric,
    fun id hid => .inl (h.knownServer id hid), knownAfter_of_gains h.knownDocument hgains, ?_, ?_,
    fun id hid => h.untouched id fun hknown => hid (.inl hknown), ?_, hclear⟩
  · rw [hparts]
    exact Shadow.run?_append_eq_some.2 ⟨after, h.run, hrun⟩
  · rw [hparts]
    exact h.ready.append (hnovel.brings h.knownServer h.untouched) hordered
      (h.aimed.spares hnovel.new) fun id hid hmem => hnovel.new id hmem (h.brought id hid)
  · rw [hparts]
    intro e he hactive
    rcases List.mem_append.1 he with he | he
    · exact .inl (h.aimed e he hactive)
    · exact aimed_of_accepts h.knownDocument htargets e he hactive
  · intro id hid
    rw [hparts, arrivalIds_append] at hid
    exact (List.mem_append.1 hid).imp_left (h.brought id)
  · rw [hparts]
    intro e he id hadd
    exact (List.mem_append.1 he).elim (fun he => h.adding e he id hadd)
      fun he => hadds e he id hadd

theorem regroup {control : Control} (hparts : control.parts = client.control.parts)
    (hclear : control.resyncRequired = client.control.resyncRequired) :
    Tracks { client with control } base before after known adds :=
  { server := h.server
    document := h.document
    root := h.root
    run := hparts ▸ h.run
    ready := hparts ▸ h.ready
    numeric := h.numeric
    knownServer := h.knownServer
    knownDocument := h.knownDocument
    aimed := hparts ▸ h.aimed
    brought := hparts ▸ h.brought
    untouched := h.untouched
    adding := hparts ▸ h.adding
    clear := hclear.trans h.clear }

/-- An acknowledged operation goes over to the server. -/
theorem acknowledge {operation : Operation} {control : Control}
    (hparts : client.control.parts = operation.edits ++ control.parts)
    (hclear : control.resyncRequired = client.control.resyncRequired) :
    ∃ next before', before.run? operation.edits = some before' ∧
      client.server.Takes operation next ∧
      Tracks ⟨client.document, control, next⟩ base before' after known adds := by
  have hrun := h.run
  have hready := h.ready
  have haimed := h.aimed
  have hbrought := h.brought
  have hadding := h.adding
  rw [hparts] at hrun hready haimed hbrought hadding
  obtain ⟨before', hbefore', hafter⟩ := Shadow.run?_append_eq_some.1 hrun
  obtain ⟨next, htakes, hshows, hroot, hgains⟩ := h.server.takes hready.left hbefore'
  refine ⟨next, before', hbefore', htakes, ?_⟩
  rw [arrivalIds_append] at hbrought
  refine ⟨hshows, h.document, h.root.trans hroot.symm, hafter, hready.right hbefore' hgains,
    h.numeric.run? hready.left.legal hbefore', fun id hid => ?_, h.knownDocument,
    fun e he => haimed e (List.mem_append_right _ he),
    fun id hid => hbrought id (List.mem_append_right _ hid), fun id hid => ?_,
    fun e he => hadding e (List.mem_append_right _ he), hclear.trans h.clear⟩
  · exact (hgains id hid).elim (h.knownServer id) fun hmem =>
      hbrought id (List.mem_append_left _ hmem)
  · have hfirst : Aimed known operation.edits := fun e he => haimed e (List.mem_append_left _ he)
    rw [hfirst.frame hbefore' hid]
    exact h.untouched id hid

/-- An operation from the server is reconciled with what is pending; what is left of it can be applied
to the client's document. -/
theorem receive {operation : Operation} {before' : Shadow} (hbatch : client.control.batch = none)
    (hnovel : Novel base known operation.edits)
    (hready : client.server.Ready before operation.edits)
    (hrun : before.run? operation.edits = some before')
    (haimed : Aimed (knownAfter known operation.edits) operation.edits)
    (hspares : Spares (arrivalIds client.control.parts) operation.edits)
    (hadds : ∀ edit ∈ operation.edits, ∀ id, edit.AddsTo id → ¬adds id) :
    ∃ adjusted pending document server after',
      reconcileQueue operation client.control.pending = .ok (adjusted, pending) ∧
      RebasedQueue client.control.pending pending ∧
      client.document.Takes adjusted document ∧ client.server.Takes operation server ∧
      ∀ control : Control, control.pending = pending → control.batch = none →
        control.resyncRequired = client.control.resyncRequired →
        Tracks ⟨document, control, server⟩ base before' after'
          (knownAfter known operation.edits) adds := by
  have hparts : client.control.parts = queueEdits client.control.pending := by
    rw [Control.parts, hbatch, Option.getD_none, List.append_nil]
  have hqueueReady := h.ready
  have hqueueRun := h.run
  have hqueueAimed := h.aimed
  have hbrought := h.brought
  have hadding := h.adding
  rw [hparts] at hqueueReady hqueueRun hqueueAimed hbrought hadding hspares
  have hreconcilable : Reconcilable operation.edits (queueEdits client.control.pending) :=
    fun e he f hf => ⟨hready.legal e he, hqueueReady.legal f hf,
      fun id he' hf' => hadds e he id he' (hadding f hf id hf')⟩
  obtain ⟨adjusted, pending, after', hqueue, hrun₁, hrun₂, hrebased, hrebasedQueue⟩ :=
    exists_reconcileQueue hreconcilable hrun hqueueRun
  have hapart : ∀ id ∈ arrivalIds operation.edits,
      id ∉ arrivalIds (queueEdits client.control.pending) :=
    fun id hid hmem => hnovel.new id hid (hbrought id hmem)
  obtain ⟨server, hserverTakes, hserver, hserverRoot, hserverGains⟩ := h.server.takes hready hrun
  obtain ⟨document, hdocTakes, hdocument, hdocRoot, hdocGains⟩ := h.document.takes
    (hready.rebased hrebased hqueueRun (hqueueAimed.spares hnovel.new)
      (hnovel.fresh h.knownDocument)) hrun₂
  refine ⟨adjusted, pending, document, server, after', hqueue, hrebasedQueue, hdocTakes,
    hserverTakes, fun control hpending hclosed hclear => ?_⟩
  have hcontrol : control.parts = queueEdits pending := by
    rw [Control.parts, hclosed, Option.getD_none, List.append_nil, hpending]
  have hleft := hrebasedQueue.edits
  refine ⟨hserver, hdocument, by rw [hdocRoot, hserverRoot, h.root], hcontrol ▸ hrun₁, ?_,
    h.numeric.run? hready.legal hrun, knownAfter_of_gains h.knownServer hserverGains,
    fun id hid => ?_, ?_, fun id hid => ?_, fun id hid => ?_, ?_, hclear.trans h.clear⟩
  · rw [hcontrol]
    exact hqueueReady.rebased hleft hrun hspares (hserverGains.fresh hqueueReady.fresh hapart)
  · rw [hrebased.arrivalIds_eq] at hdocGains
    exact knownAfter_of_gains h.knownDocument hdocGains id hid
  · rw [hcontrol]
    exact fun e he hactive => .inl (hqueueAimed.rebased hleft e he hactive)
  · rw [hcontrol, hleft.arrivalIds_eq] at hid
    exact .inl (hbrought id hid)
  · rw [haimed.frame hrun hid]
    exact h.untouched id fun hknown => hid (.inl hknown)
  · rw [hcontrol]
    exact hadding.rebased hleft

end Tracks
end Client
end CoEdit
