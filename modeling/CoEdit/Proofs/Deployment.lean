import CoEdit.Proofs.Ledger
import CoEdit.Proofs.Reconciliation
import Mathlib.Data.List.Pairwise

/-!
# Deployments converge

Every participant of an exchange keeps a document, and so does the sequencer. Local edits are applied
where they are made, what is committed is applied by the sequencer, and what arrives is applied once it
is reconciled. In whatever order things happen, no call fails, and once nothing is on its way and
nothing pending, all documents agree (`converges`).

A participant that has read a part of the history stands beside the stage to which that part leads, as a
client beside its server. What it has not read yet leads on from there to the sequencer's document.
-/
namespace CoEdit

/-- An exchange whose participants, and whose sequencer, keep documents. -/
structure Deployment (ι : Type) where
  exchange : Exchange ι
  documents : ι → Document
  server : Document

def Action.edits {ι : Type} : Action ι → List Edit
  | .submit _ operation => operation.edits
  | .beginBatch _ => []
  | .completeBatch _ => []
  | .send _ => []
  | .commit _ => []
  | .deliver _ => []

/-- Whether a call failed. -/
def Answer.Failed : Answer → Prop
  | .submitted (.error _) => True
  | .begun (.error _) => True
  | .completed (.error _) => True
  | .committed (.error _) => True
  | .acknowledged _ _ (.error _) => True
  | .received _ (.error _) => True
  | _ => False

namespace Deployment
open Document Client Exchange

variable {ι : Type} [DecidableEq ι]

def start (config : ι → ControlConfig) (doc : Document) : Deployment ι :=
  ⟨.start config, fun _ => doc, doc⟩

def control (deployment : Deployment ι) (i : ι) : Control :=
  (deployment.exchange.sites i).control

def client (deployment : Deployment ι) (i : ι) : Client :=
  ⟨deployment.documents i, deployment.control i, deployment.server⟩

def apply (deployment : Deployment ι) (i : ι) (operation : Operation) : Deployment ι :=
  { deployment with documents :=
      Function.update deployment.documents i ((deployment.documents i).apply operation).2 }

def step (deployment : Deployment ι) (action : Action ι) : Deployment ι :=
  let taken := deployment.exchange.step action
  let after := { deployment with exchange := taken.2 }
  match action, taken.1 with
  | .submit i operation, _ => after.apply i operation
  | .commit _, .committed (.ok operation) =>
      { after with server := (deployment.server.apply operation).2 }
  | .deliver i, .received _ (.ok operation) => after.apply i operation
  | _, _ => after

/-- Which actions are looked at: local edits that apply to attached elements of the participant's own
document, while the queue has room; batches, one at a time; and deliveries, those of operations only
while no batch is open. -/
def Admits (deployment : Deployment ι) : Action ι → Prop
  | .submit i operation => (deployment.documents i).Accepts operation.edits ∧
      ((deployment.control i).batch = none → (deployment.control i).HasRoom)
  | .beginBatch i => (deployment.control i).batch = none
  | .completeBatch i => ∃ edits, (deployment.control i).batch = some edits ∧
      (edits ≠ [] → (deployment.control i).HasRoom)
  | action => deployment.exchange.Admits action

/-- No call fails, and whatever is to be applied to a document is taken. -/
def Succeeds (deployment : Deployment ι) (action : Action ι) : Prop :=
  ¬(deployment.exchange.step action).1.Failed ∧
    match action, (deployment.exchange.step action).1 with
    | .submit i operation, _ => ∃ next, (deployment.documents i).Takes operation next
    | .commit _, .committed (.ok operation) => ∃ next, deployment.server.Takes operation next
    | .deliver i, .received _ (.ok operation) => ∃ next, (deployment.documents i).Takes operation next
    | _, _ => True

/-- Nothing is on its way and nothing pending. -/
def Settled (deployment : Deployment ι) : Prop :=
  ∀ i, (deployment.exchange.sites i).uplink = none ∧ (deployment.exchange.sites i).inbox = [] ∧
    (deployment.control i).pending = []

/-- The documents agree. A participant with a batch open is ahead by what the batch has collected. -/
structure Agrees (deployment : Deployment ι) : Prop where
  sequencer : ∀ i, (deployment.control i).batch = none →
    (deployment.server.snapshot == (deployment.documents i).snapshot) = true
  participants : ∀ i j, (deployment.control i).batch = none → (deployment.control j).batch = none →
    ((deployment.documents i).snapshot == (deployment.documents j).snapshot) = true
  inStep : ∀ i, (deployment.client i).InStep

/-- Each action of the run is looked at when its turn comes. -/
def Admitted (deployment : Deployment ι) : List (Action ι) → Prop
  | [] => True
  | action :: rest => deployment.Admits action ∧ (deployment.step action).Admitted rest

/-- Every action of the run succeeds, and the documents agree whenever everything has settled. -/
def Converges (deployment : Deployment ι) : List (Action ι) → Prop
  | [] => deployment.Settled → deployment.Agrees
  | action :: rest => (deployment.Settled → deployment.Agrees) ∧ deployment.Succeeds action ∧
      (deployment.step action).Converges rest

/-! ## One step -/

variable {ledger : Ledger ι} {known : ElementId → Prop} {deployment : Deployment ι}
  {last : Stage} {i : ι}

/-- Participant `i` has read a part of the history and stands beside the stage to which that leads. What
it has not read leads on to the last stage. -/
def Attends (ledger : Ledger ι) (history : List (Entry ι)) (last : Stage) (i : ι) (site : Site)
    (document : Document) : Prop :=
  ∃ read unread stage, history = read ++ unread ∧ Follows i site read unread ∧
    Stage.LeadsAll ledger.base stage (unread.map Entry.operation) last ∧
    Keeps ledger i document site.control stage

/-- How participants and sequencer belong together. -/
structure Coheres (ledger : Ledger ι) (known : ElementId → Prop) (deployment : Deployment ι)
    (last : Stage) : Prop where
  server : last.document = deployment.server
  stands : last.Stands ledger.base
  attends : ∀ i, Attends ledger deployment.exchange.history last i (deployment.exchange.sites i)
    (deployment.documents i)
  listed : ∀ entry ∈ deployment.exchange.history, ledger.Lists entry.site entry.operation.edits
  known_last : ∀ id, last.known id → known id
  known_parts : ∀ i, ∀ id ∈ arrivalIds (deployment.control i).parts, known id

namespace Coheres

variable (h : Coheres ledger known deployment last)
include h

theorem withSite {site : Site} {document : Document} {known' : ElementId → Prop}
    (hattends : Attends ledger deployment.exchange.history last i site document)
    (hknown : ∀ id, known id → known' id)
    (hparts : ∀ id ∈ arrivalIds site.control.parts, known' id) :
    Coheres ledger known' ⟨deployment.exchange.withSite i site,
      Function.update deployment.documents i document, deployment.server⟩ last := by
  refine ⟨h.server, h.stands, fun j => ?_, h.listed, fun id hid => hknown id (h.known_last id hid),
    fun j id hid => ?_⟩
  · by_cases hj : j = i
    · subst hj
      simp only [withSite_self, Function.update_self, history_withSite]
      exact hattends
    · simp only [withSite_of_ne _ hj, Function.update_of_ne hj, history_withSite]
      exact h.attends j
  · by_cases hj : j = i
    · subst hj
      rw [control, withSite_self] at hid
      exact hparts id hid
    · rw [control, withSite_of_ne _ hj] at hid
      exact hknown id (h.known_parts j id hid)

theorem withSite_of_attends {site : Site}
    (hattends : Attends ledger deployment.exchange.history last i site (deployment.documents i))
    (hparts : ∀ id ∈ arrivalIds site.control.parts, id ∈ arrivalIds (deployment.control i).parts) :
    Coheres ledger known { deployment with exchange := deployment.exchange.withSite i site } last := by
  have hknown : ∀ id ∈ arrivalIds site.control.parts, known id :=
    fun id hid => h.known_parts i id (hparts id hid)
  have hstep := h.withSite hattends (fun _ => id) hknown
  rw [Function.update_eq_self] at hstep
  exact hstep

/-- What participant `i` has sent can be rebased, and the last stage allows it then. -/
theorem exists_rebase {sent : Outgoing} (hsent : (deployment.exchange.sites i).uplink = some sent) :
    ∃ operation, rebase (deployment.exchange.since sent.contextVersion) sent.operation =
        .ok operation ∧ last.Allows ledger.base operation.edits ∧
      ledger.Lists i operation.edits ∧ ∀ id ∈ arrivalIds operation.edits, known id := by
  obtain ⟨read, unread, stage, hhistory, hfollows, hleads, hkeeps⟩ := h.attends i
  obtain ⟨head, rest, -, hpending, hforeign, hrebase⟩ := hfollows.exists_head hsent
  obtain ⟨hallows, hlists⟩ := hkeeps.allows_head hpending
  -- whatever the head has yet to meet is down to others
  have hothers : ∀ operation ∈ unread.map Entry.operation,
      ∃ j ≠ i, ledger.Lists j operation.edits := by
    intro operation hmem
    obtain ⟨entry, hentry, rfl⟩ := List.mem_map.1 hmem
    refine ⟨entry.site, hforeign entry hentry, h.listed entry ?_⟩
    rw [hhistory]
    exact List.mem_append_right _ hentry
  have hapart : ∀ operation ∈ unread.map Entry.operation, ∀ id ∈ arrivalIds operation.edits,
      id ∉ arrivalIds head.edits := by
    intro operation hmem id hid hown
    obtain ⟨j, hj, hother⟩ := hothers operation hmem
    exact ledger.born_apart hj id (hother.born id hid) (hlists.born id hown)
  have hadds : ∀ operation ∈ unread.map Entry.operation, ∀ e ∈ operation.edits,
      ∀ f ∈ head.edits, ∀ id, e.AddsTo id → ¬f.AddsTo id := by
    intro operation hmem e he f hf id hadd hadd'
    obtain ⟨j, hj, hother⟩ := hothers operation hmem
    exact ledger.adds_apart hj id (hother.adds e he id hadd) (hlists.adds f hf id hadd')
  obtain ⟨operation, hoperation, hrebased, hlast⟩ := hallows.exists_rebase hleads hapart hadds
  refine ⟨operation, ?_, hlast, hlists.rebased hrebased, fun id hid => h.known_parts i id ?_⟩
  · rw [since, hhistory, hrebase, hoperation]
  · rw [hrebased.arrivalIds_eq] at hid
    rw [control, Control.parts, hpending, queueEdits, List.flatMap_cons, List.append_assoc,
      arrivalIds_append]
    exact List.mem_append_left _ hid

theorem committed {sent : Outgoing} {operation : Operation} {next : Stage}
    (hsent : (deployment.exchange.sites i).uplink = some sent)
    (hrebase : rebase (deployment.exchange.since sent.contextVersion) sent.operation = .ok operation)
    (hnext : last.Leads ledger.base operation next) (hlists : ledger.Lists i operation.edits)
    (hknown : ∀ id ∈ arrivalIds operation.edits, known id) :
    Coheres ledger known
      ⟨deployment.exchange.committed i sent operation, deployment.documents, next.document⟩ next := by
  have hhistory : (deployment.exchange.committed i sent operation).history =
      deployment.exchange.history ++ [⟨i, sent.sequence, operation⟩] := rfl
  refine ⟨rfl, hnext.stands h.stands, fun j => ?_, fun entry hentry => ?_, fun id hid => ?_,
    fun j id hid => ?_⟩
  · obtain ⟨read, unread, stage, hsplit, hfollows, hleads, hkeeps⟩ := h.attends j
    refine ⟨read, _, stage, ?_, hfollows.committed hsplit hsent hrebase, ?_, ?_⟩
    · rw [hhistory, hsplit, List.append_assoc]
    · rw [List.map_append]
      exact hleads.append hnext
    · rw [control_committed]
      exact hkeeps
  · rw [hhistory, List.mem_append, List.mem_singleton] at hentry
    rcases hentry with hentry | rfl
    · exact h.listed entry hentry
    · exact hlists
  · rw [hnext.known] at hid
    exact hid.elim (h.known_last id) (hknown id)
  · rw [control, control_committed] at hid
    exact h.known_parts j id hid

/-- A commit takes the sequencer to the next stage. -/
theorem commit (i : ι) : deployment.Succeeds (.commit i) ∧
    ∃ last', Coheres ledger known (deployment.step (.commit i)) last' := by
  unfold Succeeds Deployment.step
  cases hsent : (deployment.exchange.sites i).uplink with
  | none =>
      have hcommit : deployment.exchange.commit i = (.nothing, deployment.exchange) := by
        rw [Exchange.commit, hsent]
      simp only [Exchange.step, hcommit]
      exact ⟨⟨id, trivial⟩, last, h⟩
  | some sent =>
      obtain ⟨operation, hrebase, hallows, hlists, hknown⟩ := h.exists_rebase hsent
      obtain ⟨next, hleads⟩ := hallows.exists_leads h.stands
      have htakes := hleads.takes
      have hnext := h.committed hsent hrebase hleads hlists hknown
      have hcommit : deployment.exchange.commit i =
          (.committed (.ok operation), deployment.exchange.committed i sent operation) := by
        rw [Exchange.commit, hsent]
        dsimp only
        rw [hrebase]
      simp only [Exchange.step, hcommit]
      rw [h.server] at htakes
      rw [← htakes.apply_eq] at hnext
      exact ⟨⟨id, next.document, htakes⟩, next, hnext⟩

theorem submit {operation : Operation} (hadmits : deployment.Admits (.submit i operation))
    (hnovel : Novel ledger.base known operation.edits) (hlists : ledger.Lists i operation.edits) :
    deployment.Succeeds (.submit i operation) ∧
      Coheres ledger (knownAfter known operation.edits) (deployment.step (.submit i operation))
        last := by
  obtain ⟨read, unread, stage, hhistory, hfollows, hleads, hkeeps⟩ := h.attends i
  obtain ⟨haccepts, hroom⟩ := hadmits
  obtain ⟨sent, hsent⟩ := Control.exists_submit hkeeps.clear hroom operation
  have hnovel' : Novel ledger.base (knownAfter stage.known (deployment.control i).parts)
      operation.edits :=
    ⟨hnovel.legal, hnovel.nodup, fun id hid hknown => hnovel.new id hid <|
      hknown.elim (fun hknown => h.known_last id (hleads.known hknown)) (h.known_parts i id),
      hnovel.told⟩
  obtain ⟨next, htakes, hnext⟩ := hkeeps.submit hsent haccepts hnovel' hlists
  obtain ⟨-, hparts, -⟩ := Control.submit_spec hsent
  have hknown : ∀ id ∈ arrivalIds ((deployment.control i).submit operation).2.parts,
      knownAfter known operation.edits id := by
    intro id hid
    rw [control, hparts, arrivalIds_append, List.mem_append] at hid
    exact hid.imp_left (h.known_parts i id)
  have hstep := h.withSite ⟨read, unread, stage, hhistory,
    hfollows.enqueue (Control.extends_submit _ operation), hleads, hnext⟩ (fun _ => .inl) hknown
  rw [← htakes.apply_eq] at hstep
  refine ⟨⟨?_, next, htakes⟩, hstep⟩
  show ¬Answer.Failed (.submitted ((deployment.exchange.sites i).control.submit operation).1)
  rw [hsent]
  exact id

theorem regroup {other : Control} (hcontrol : (deployment.control i).Extends other)
    (hparts : other.parts = (deployment.control i).parts) :
    Coheres ledger known { deployment with
      exchange := deployment.exchange.withControl i other } last := by
  obtain ⟨read, unread, stage, hhistory, hfollows, hleads, hkeeps⟩ := h.attends i
  refine h.withSite_of_attends ⟨read, unread, stage, hhistory, hfollows.enqueue hcontrol, hleads,
    hkeeps.regroup hparts hcontrol.clear⟩ fun id hid => ?_
  rw [← hparts]
  exact hid

theorem beginBatch (hadmits : deployment.Admits (.beginBatch i)) :
    deployment.Succeeds (.beginBatch i) ∧
      Coheres ledger known (deployment.step (.beginBatch i)) last := by
  obtain ⟨hparts, -⟩ := Control.beginBatch_spec (deployment.control i)
  refine ⟨⟨?_, trivial⟩, h.regroup (Control.extends_beginBatch _) hparts⟩
  show ¬Answer.Failed (.begun (deployment.control i).beginBatch.1)
  have hbatch : (deployment.control i).batch = none := hadmits
  rw [Control.beginBatch, hbatch]
  exact id

theorem completeBatch (hadmits : deployment.Admits (.completeBatch i)) :
    deployment.Succeeds (.completeBatch i) ∧
      Coheres ledger known (deployment.step (.completeBatch i)) last := by
  obtain ⟨edits, hbatch, hroom⟩ := hadmits
  obtain ⟨sent, hsent⟩ := Control.exists_completeBatch hbatch hroom
  obtain ⟨hparts, -⟩ := Control.completeBatch_spec hsent
  refine ⟨⟨?_, trivial⟩, h.regroup (Control.extends_completeBatch _) hparts⟩
  show ¬Answer.Failed (.completed (deployment.control i).completeBatch.1)
  rw [hsent]
  exact id

theorem send (i : ι) : deployment.Succeeds (.send i) ∧
    Coheres ledger known (deployment.step (.send i)) last := by
  obtain ⟨read, unread, stage, hhistory, hfollows, hleads, hkeeps⟩ := h.attends i
  have hcontrol : (deployment.exchange.sites i).send.control =
      (deployment.exchange.sites i).control := by
    rw [Site.send]
    split <;> rfl
  refine ⟨⟨id, trivial⟩, h.withSite_of_attends ⟨read, unread, stage, hhistory, hfollows.send, hleads,
    hcontrol ▸ hkeeps⟩ fun id hid => ?_⟩
  rw [control, ← hcontrol]
  exact hid

section Deliver

variable {read unread : List (Entry ι)} {entry : Entry ι} {stage next : Stage}
  (hhistory : deployment.exchange.history = read ++ entry :: unread)
  (hfollows : Follows i (deployment.exchange.sites i) read (entry :: unread))
  (hkeeps : Keeps ledger i (deployment.documents i) (deployment.control i) stage)
  (hfirst : stage.Leads ledger.base entry.operation next)
  (hrest : Stage.LeadsAll ledger.base next (unread.map Entry.operation) last)
include hhistory hfollows hkeeps hfirst hrest

theorem deliver_own (hentry : entry.site = i) : deployment.Succeeds (.deliver i) ∧
    Coheres ledger known (deployment.step (.deliver i)) last := by
  have hinbox := hfollows.inbox
  rw [mail, message, if_pos hentry] at hinbox
  obtain ⟨hanswer, hcontrol⟩ := Site.deliver_acknowledgement hinbox
  obtain ⟨hdelivered, hnext⟩ := hfollows.deliver_own hentry
  have hok : ((deployment.control i).acknowledge entry.sequence read.length).1 =
      .ok entry.operation := by
    rw [hanswer] at hdelivered
    injection hdelivered
  obtain ⟨hparts, hclear⟩ := Control.acknowledge_parts hok
  have hkept := hkeeps.acknowledge hparts hclear hfirst
  rw [control, ← hcontrol] at hkept hparts
  have hsplit : deployment.exchange.history = (read ++ [entry]) ++ unread := by
    rw [hhistory, List.append_assoc, List.singleton_append]
  have hstep := h.withSite_of_attends ⟨_, _, _, hsplit, hnext, hrest, hkept⟩ fun id hid => by
    rw [control, hparts, arrivalIds_append]
    exact List.mem_append_right _ hid
  simp only [Succeeds, Deployment.step, Exchange.step, hdelivered]
  exact ⟨⟨id, trivial⟩, hstep⟩

theorem deliver_foreign (hentry : entry.site ≠ i) (hadmits : deployment.Admits (.deliver i)) :
    deployment.Succeeds (.deliver i) ∧
      Coheres ledger known (deployment.step (.deliver i)) last := by
  have hinbox := hfollows.inbox
  rw [mail, message, if_neg hentry] at hinbox
  obtain ⟨hanswer, hcontrol⟩ := Site.deliver_remote hinbox
  have hbatch : (deployment.control i).batch = none := hadmits ⟨_, _, hinbox⟩
  have hlisted := h.listed entry (by rw [hhistory]; simp)
  obtain ⟨adjusted, pending, document, hqueue, htakes, hkept⟩ :=
    hkeeps.receive hentry hbatch hlisted hfirst
  have hreceive : (deployment.control i).receive ⟨read.length, entry.operation⟩ = _ :=
    Control.receive_eq hkeeps.clear hbatch hfollows.version.symm hqueue
  rw [← control, hreceive] at hanswer hcontrol
  obtain ⟨-, hnext⟩ := hfollows.deliver_foreign hentry hbatch (by rw [hanswer]; exact id)
  obtain ⟨hids, hkept'⟩ := hkept (deployment.exchange.sites i).deliver.2.control (by rw [hcontrol])
    (by rw [hcontrol]; exact hbatch) (by rw [hcontrol])
  have hsplit : deployment.exchange.history = (read ++ [entry]) ++ unread := by
    rw [hhistory, List.append_assoc, List.singleton_append]
  have hstep := h.withSite ⟨_, _, _, hsplit, hnext, hrest, hkept'⟩ (fun _ => id)
    fun id hid => h.known_parts i id (hids ▸ hid)
  rw [← htakes.apply_eq] at hstep
  simp only [Succeeds, Deployment.step, Exchange.step, hanswer]
  exact ⟨⟨id, document, htakes⟩, hstep⟩

end Deliver

theorem deliver (hadmits : deployment.Admits (.deliver i)) : deployment.Succeeds (.deliver i) ∧
    Coheres ledger known (deployment.step (.deliver i)) last := by
  obtain ⟨read, unread, stage, hhistory, hfollows, hleads, hkeeps⟩ := h.attends i
  cases unread with
  | nil =>
      have hinbox : (deployment.exchange.sites i).inbox = [] := hfollows.inbox
      have hdeliver : (deployment.exchange.sites i).deliver =
          (.nothing, deployment.exchange.sites i) := by
        rw [Site.deliver, hinbox]
      simp only [Succeeds, Deployment.step, Exchange.step, hdeliver]
      exact ⟨⟨id, trivial⟩, h.withSite_of_attends
        ⟨read, [], stage, hhistory, hfollows, hleads, hkeeps⟩ fun _ => id⟩
  | cons entry unread =>
      rw [List.map_cons] at hleads
      cases hleads with
      | cons hfirst hrest =>
          by_cases hentry : entry.site = i
          · exact h.deliver_own hhistory hfollows hkeeps hfirst hrest hentry
          · exact h.deliver_foreign hhistory hfollows hkeeps hfirst hrest hentry hadmits

/-- Every action that is looked at succeeds, and everything goes on belonging together. -/
theorem step {action : Action ι} (hadmits : deployment.Admits action)
    (hnovel : Novel ledger.base known action.edits)
    (hlists : ledger.Lists action.site action.edits) :
    deployment.Succeeds action ∧
      ∃ last', Coheres ledger (knownAfter known action.edits) (deployment.step action) last' := by
  cases action with
  | submit i operation =>
      obtain ⟨hsucceeds, hnext⟩ := h.submit hadmits hnovel hlists
      exact ⟨hsucceeds, last, hnext⟩
  | beginBatch i =>
      obtain ⟨hsucceeds, hnext⟩ := h.beginBatch hadmits
      rw [Action.edits, knownAfter_nil]
      exact ⟨hsucceeds, last, hnext⟩
  | completeBatch i =>
      obtain ⟨hsucceeds, hnext⟩ := h.completeBatch hadmits
      rw [Action.edits, knownAfter_nil]
      exact ⟨hsucceeds, last, hnext⟩
  | send i =>
      obtain ⟨hsucceeds, hnext⟩ := h.send i
      rw [Action.edits, knownAfter_nil]
      exact ⟨hsucceeds, last, hnext⟩
  | commit i =>
      rw [Action.edits, knownAfter_nil]
      exact h.commit i
  | deliver i =>
      obtain ⟨hsucceeds, hnext⟩ := h.deliver hadmits
      rw [Action.edits, knownAfter_nil]
      exact ⟨hsucceeds, last, hnext⟩

/-- Once everything has settled, each participant stands beside the last stage. -/
theorem keeps_last (hsettled : deployment.Settled) (i : ι) :
    Keeps ledger i (deployment.documents i) (deployment.control i) last := by
  obtain ⟨read, unread, stage, -, hfollows, hleads, hkeeps⟩ := h.attends i
  obtain ⟨-, hinbox, -⟩ := hsettled i
  rw [hfollows.inbox] at hinbox
  have hunread : unread = [] := by
    rw [← List.length_eq_zero_iff, ← mail_length (i := i) read.length, hinbox, List.length_nil]
  subst hunread
  cases hleads
  exact hkeeps

theorem shows_last (hsettled : deployment.Settled) (hbatch : (deployment.control i).batch = none) :
    (deployment.documents i).Shows last.shadow ∧
      (deployment.documents i).root = deployment.server.root := by
  obtain ⟨after, htracks⟩ := (h.keeps_last hsettled i).tracks
  have hparts : (deployment.control i).parts = [] := by
    rw [Control.parts, (hsettled i).2.2, hbatch]
    rfl
  have hrun := htracks.run
  simp only [hparts] at hrun
  cases hrun
  exact ⟨htracks.document, h.server ▸ htracks.root⟩

theorem agrees (hsettled : deployment.Settled) : deployment.Agrees := by
  have hserver : deployment.server.Shows last.shadow := h.server ▸ h.stands.shows
  refine ⟨fun i hi => ?_, fun i j hi hj => ?_, fun i => ?_⟩
  · obtain ⟨hshows, hroot⟩ := h.shows_last hsettled hi
    exact hserver.agrees hshows hroot.symm h.stands.numeric
  · obtain ⟨hshows, hroot⟩ := h.shows_last hsettled hi
    obtain ⟨hshows', hroot'⟩ := h.shows_last hsettled hj
    exact hshows.agrees hshows' (hroot.trans hroot'.symm) h.stands.numeric
  · obtain ⟨after, htracks⟩ := (h.keeps_last hsettled i).tracks
    rw [client, ← h.server]
    exact htracks.in_step

end Coheres

/-! ## Runs -/

theorem coheres_start (config : ι → ControlConfig) {doc : Document} (hshows : doc.Shows ledger.base)
    (hnumeric : ledger.base.Numeric) :
    Coheres ledger (fun id => doc.contains id = true) (start config doc)
      ⟨doc, ledger.base, fun id => doc.contains id = true⟩ := by
  have hstands : Stage.Stands ledger.base
      ⟨doc, ledger.base, fun id => doc.contains id = true⟩ :=
    ⟨hshows, hnumeric, fun _ => id, fun _ _ => rfl⟩
  have hbrings : doc.Brings ledger.base [] := ⟨by simp, .nil, by simp [arrivalIds, arrivals],
    by simp [arrivals]⟩
  refine ⟨rfl, hstands, fun i => ?_, by simp [start, Exchange.start], fun _ => id, ?_⟩
  · have hstep : InStep ⟨doc, .start (config i) 0, doc⟩ :=
      ⟨doc, ⟨[], rfl⟩, hshows.agrees hshows rfl hnumeric⟩
    have hadding : Adding (ledger.adds i) [] := fun e he => absurd he List.not_mem_nil
    have htracks := hstep.exists_tracks hshows hshows.sound hnumeric hbrings trivial hadding rfl
    exact ⟨[], [], _, rfl, .start i (config i), .nil _, hstands, htracks,
      fun id hid => absurd hid List.not_mem_nil, fun id hid => absurd hid List.not_mem_nil⟩
  · exact fun i id hid => absurd hid List.not_mem_nil

theorem Coheres.converges_throughout (h : Coheres ledger known deployment last) {actions : List (Action ι)}
    (hadmitted : deployment.Admitted actions)
    (hnovel : Novel ledger.base known (actions.flatMap Action.edits))
    (hlists : ∀ action ∈ actions, ledger.Lists action.site action.edits) :
    deployment.Converges actions := by
  induction actions generalizing deployment known last with
  | nil => exact h.agrees
  | cons action rest ih =>
      rw [List.forall_mem_cons] at hlists
      obtain ⟨hsucceeds, last', hnext⟩ := h.step hadmitted.1 hnovel.left hlists.1
      exact ⟨h.agrees, hsucceeds, ih hnext hadmitted.2 hnovel.right hlists.2⟩

/-- What participants bring along and add to in a run, if all of that is different. -/
def ledgerOf (base : Shadow) (actions : List (Action ι))
    (hnodup : (arrivalIds (actions.flatMap Action.edits)).Nodup)
    (hadds : ∀ i j, i ≠ j → ∀ a, .submit i a ∈ actions → ∀ b, .submit j b ∈ actions →
      ∀ e ∈ a.edits, ∀ f ∈ b.edits, ∀ id, e.AddsTo id → ¬f.AddsTo id) : Ledger ι where
  base := base
  born i id := ∃ a, .submit i a ∈ actions ∧ id ∈ arrivalIds a.edits
  adds i id := ∃ a, .submit i a ∈ actions ∧ ∃ e ∈ a.edits, e.AddsTo id
  born_apart := by
    rintro i j hij id ⟨a, ha, hid⟩ ⟨b, hb, hid'⟩
    rw [arrivalIds_flatMap, List.nodup_flatMap] at hnodup
    have hne : Action.submit i a ≠ .submit j b := fun heq => hij (Action.submit.inj heq).1
    have hsymm : Std.Symm (Function.onFun List.Disjoint fun action : Action ι =>
        arrivalIds action.edits) := ⟨fun _ _ h _ ha hb => h hb ha⟩
    exact hnodup.2.forall ha hb hne hid hid'
  adds_apart := by
    rintro i j hij id ⟨a, ha, e, he, hadd⟩ ⟨b, hb, f, hf, hadd'⟩
    exact hadds i j hij a ha b hb e he f hf id hadd hadd'

/-- However local edits, batches, sends, commits and deliveries follow one another at however many
participants, no call fails, and whenever nothing is on its way and nothing pending, all documents agree.
All elements that edits bring along are new and different, and no two participants add to one number. A
document that agrees with itself is one without a number that is none. All edits are made with checked
sums. -/
theorem converges {config : ι → ControlConfig} {doc : Document} {actions : List (Action ι)}
    (hdoc : doc.Reachable) (hself : (doc.snapshot == doc.snapshot) = true)
    (hadmitted : (start config doc).Admitted actions)
    (hlegal : ∀ edit ∈ actions.flatMap Action.edits, edit.change.Legal)
    (hnodup : (arrivalIds (actions.flatMap Action.edits)).Nodup)
    (hfresh : ∀ id ∈ arrivalIds (actions.flatMap Action.edits), doc.contains id = false)
    (hadds : ∀ i j, i ≠ j → ∀ a, .submit i a ∈ actions → ∀ b, .submit j b ∈ actions →
      ∀ e ∈ a.edits, ∀ f ∈ b.edits, ∀ id, e.AddsTo id → ¬f.AddsTo id) :
    (start config doc).Converges actions := by
  have hkeyed := hdoc.sound.holds_snapshot.keyed
  have hsame := Element.same_of_agrees hself hkeyed hkeyed
  obtain ⟨base, hshows, hnumeric, hbrings⟩ := exists_shadow hdoc.sound
    (fun x hx => by obtain ⟨y, -, -, -, hnumber⟩ := hsame.1 x hx; exact hnumber) hlegal hnodup hfresh
  let ledger := ledgerOf base actions hnodup hadds
  have hcoheres : Coheres ledger _ (start config doc) _ := coheres_start config hshows hnumeric
  refine hcoheres.converges_throughout hadmitted ⟨hlegal, hnodup, fun id hid hknown => ?_, hbrings.told⟩ ?_
  · rw [hfresh id hid] at hknown
    cases hknown
  · intro action haction
    cases action with
    | submit i a =>
        exact ⟨fun id hid => ⟨a, haction, hid⟩, fun e he id hadd => ⟨a, haction, e, he, hadd⟩⟩
    | _ => exact ⟨fun id hid => absurd hid List.not_mem_nil, fun e he => absurd he List.not_mem_nil⟩

/-- One participant removes a text while the other adds to it. -/
def additionBesideRemoval : List (Action Bool) :=
  [.submit true addToList, .submit false removeText, .send true, .send false, .commit false,
    .commit true, .deliver true, .deliver true, .deliver false, .deliver false]

theorem converges_list :
    (start (fun _ => .standard) listOfText).Converges additionBesideRemoval ∧
      (additionBesideRemoval.foldl step (start (fun _ => .standard) listOfText)).Settled := by
  have hadmitted :
      (start (fun _ : Bool => .standard) listOfText).Admitted additionBesideRemoval :=
    ⟨⟨by decide, fun _ => by decide⟩, ⟨by decide, fun _ => by decide⟩, trivial, trivial, trivial,
      trivial, fun _ => rfl, fun _ => rfl, fun _ => rfl, fun _ => rfl, trivial⟩
  refine ⟨converges reachable_listOfText (by decide +kernel) hadmitted (by decide) (by decide)
    (by decide) ?_, ?_⟩
  · intro i j _ a ha _ _ e he _ _ id hadd
    have hnone : ∀ edit ∈ additionBesideRemoval.flatMap Action.edits,
        edit.change.isDelta = false := by decide
    have hdelta := hadd.2.1
    rw [hnone e (List.mem_flatMap.2 ⟨_, ha, he⟩)] at hdelta
    cases hdelta
  · intro i
    cases i <;> exact ⟨rfl, rfl, rfl⟩

end Deployment
end CoEdit
