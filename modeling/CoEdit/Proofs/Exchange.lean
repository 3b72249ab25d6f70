import CoEdit.Control
import Mathlib.Logic.Function.Basic

/-!
# Participants and a sequencer

Any number of participants exchange operations with a sequencer. A participant has one operation on its
way at a time: the head of its queue, with the version that its control has reached. The sequencer
rebases it over everything that was committed from that version on, commits it, and posts an
acknowledgement to its sender and the committed operation to everybody else. Mail is delivered in
order, while everything else may happen in between.
-/
namespace CoEdit

/-- What the sequencer makes of an operation that meets those committed since. -/
def rebase : List Operation → Operation → Except TransformError Operation
  | [], operation => .ok operation
  | committed :: rest, operation => do
      let (_, operation) ← committed.transform operation
      rebase rest operation

/-- A committed operation, with who sent it and under which number. -/
structure Entry (ι : Type) where
  site : ι
  sequence : Nat
  operation : Operation

inductive Message where
  | acknowledgement (sequence version : Nat)
  | remote (incoming : Incoming)

/-- A participant's control with the messages from and to it. -/
structure Site where
  control : Control
  /-- The number of the operation that was sent and not acknowledged. -/
  inFlight : Option Nat
  uplink : Option Outgoing
  /-- What is on its way from the sequencer, oldest first. -/
  inbox : List Message
  /-- How many messages were taken from the inbox. -/
  processed : Nat

/-- All participants, and what the sequencer has committed. -/
structure Exchange (ι : Type) where
  sites : ι → Site
  history : List (Entry ι)

inductive Action (ι : Type) where
  | submit (site : ι) (operation : Operation)
  | beginBatch (site : ι)
  | completeBatch (site : ι)
  /-- A participant sends the head of its queue, if nothing of it is in flight. -/
  | send (site : ι)
  | commit (site : ι)
  | deliver (site : ι)

def Action.site {ι : Type} : Action ι → ι
  | .submit i _ => i
  | .beginBatch i => i
  | .completeBatch i => i
  | .send i => i
  | .commit i => i
  | .deliver i => i

inductive Answer where
  | nothing
  | submitted (answer : Except ControlError (Option Outgoing))
  | begun (answer : Except ControlError Unit)
  | completed (answer : Except ControlError (Option Outgoing))
  | committed (answer : Except TransformError Operation)
  | acknowledged (sequence version : Nat) (answer : Except ControlError Operation)
  | received (incoming : Incoming) (answer : Except ControlError Operation)

/-- Whether operations could not be reconciled. -/
def Answer.TransformFailed : Answer → Prop
  | .committed (.error _) => True
  | .received _ (.error (.transform _)) => True
  | _ => False

namespace Site

def post (site : Site) (message : Message) : Site :=
  { site with inbox := site.inbox ++ [message] }

def send (site : Site) : Site :=
  match site.inFlight, site.control.pending with
  | none, (sequence, operation) :: _ =>
      { site with
        inFlight := some sequence
        uplink := some ⟨sequence, site.control.contextVersion, operation⟩ }
  | _, _ => site

def deliver (site : Site) : Answer × Site :=
  match site.inbox with
  | [] => (.nothing, site)
  | .acknowledgement sequence version :: rest =>
      let (answer, control) := site.control.acknowledge sequence version
      (.acknowledged sequence version answer,
        { site with control, inFlight := none, inbox := rest, processed := site.processed + 1 })
  | .remote incoming :: rest =>
      let (answer, control) := site.control.receive incoming
      (.received incoming answer,
        { site with control, inbox := rest, processed := site.processed + 1 })

theorem deliver_acknowledgement {site : Site} {sequence version : Nat} {rest : List Message}
    (h : site.inbox = .acknowledgement sequence version :: rest) :
    site.deliver.1 = .acknowledged sequence version (site.control.acknowledge sequence version).1 ∧
      site.deliver.2.control = (site.control.acknowledge sequence version).2 := by
  rw [deliver, h]
  exact ⟨rfl, rfl⟩

theorem deliver_remote {site : Site} {incoming : Incoming} {rest : List Message}
    (h : site.inbox = .remote incoming :: rest) :
    site.deliver.1 = .received incoming (site.control.receive incoming).1 ∧
      site.deliver.2.control = (site.control.receive incoming).2 := by
  rw [deliver, h]
  exact ⟨rfl, rfl⟩

/-- Whether the oldest message is an operation of somebody else. -/
def RemoteNext (site : Site) : Prop :=
  ∃ incoming rest, site.inbox = .remote incoming :: rest

end Site

namespace Exchange

variable {ι : Type}

def start (config : ι → ControlConfig) : Exchange ι where
  sites i := ⟨.start (config i) 0, none, none, [], 0⟩
  history := []

/-- The operations that were committed from a version on. -/
def since (exchange : Exchange ι) (version : Nat) : List Operation :=
  (exchange.history.drop version).map Entry.operation

variable [DecidableEq ι]

/-- What the sequencer tells participant `i` of an entry. -/
def message (i : ι) (version : Nat) (entry : Entry ι) : Message :=
  if entry.site = i then .acknowledgement entry.sequence version
  else .remote ⟨version, entry.operation⟩

def withSite (exchange : Exchange ι) (i : ι) (site : Site) : Exchange ι :=
  { exchange with sites := Function.update exchange.sites i site }

@[simp] theorem history_withSite (exchange : Exchange ι) (i : ι) (site : Site) :
    (exchange.withSite i site).history = exchange.history := rfl

@[simp] theorem withSite_self (exchange : Exchange ι) (i : ι) (site : Site) :
    (exchange.withSite i site).sites i = site :=
  Function.update_self ..

theorem withSite_of_ne (exchange : Exchange ι) {i j : ι} (hj : j ≠ i) (site : Site) :
    (exchange.withSite i site).sites j = exchange.sites j :=
  Function.update_of_ne hj ..

/-- The exchange with an entry more, which every participant is told of. -/
def append (exchange : Exchange ι) (entry : Entry ι) : Exchange ι where
  sites j := (exchange.sites j).post (message j exchange.history.length entry)
  history := exchange.history ++ [entry]

@[simp] theorem history_append (exchange : Exchange ι) (entry : Entry ι) :
    (exchange.append entry).history = exchange.history ++ [entry] := rfl

theorem append_sites (exchange : Exchange ι) (entry : Entry ι) (j : ι) :
    (exchange.append entry).sites j =
      (exchange.sites j).post (message j exchange.history.length entry) := rfl

/-- The exchange once what participant `i` has sent is committed as `operation`. -/
def committed (exchange : Exchange ι) (i : ι) (sent : Outgoing) (operation : Operation) :
    Exchange ι :=
  (exchange.withSite i { exchange.sites i with uplink := none }).append
    ⟨i, sent.sequence, operation⟩

theorem control_committed (exchange : Exchange ι) (i j : ι) (sent : Outgoing)
    (operation : Operation) :
    ((exchange.committed i sent operation).sites j).control = (exchange.sites j).control := by
  by_cases hj : j = i
  · rw [hj, committed, append_sites, withSite_self]
    rfl
  · rw [committed, append_sites, withSite_of_ne exchange hj]
    rfl

/-- The sequencer takes what a participant has sent. -/
def commit (exchange : Exchange ι) (i : ι) : Answer × Exchange ι :=
  match (exchange.sites i).uplink with
  | none => (.nothing, exchange)
  | some sent =>
      match rebase (exchange.since sent.contextVersion) sent.operation with
      | .error e =>
          (.committed (.error e), exchange.withSite i { exchange.sites i with uplink := none })
      | .ok operation => (.committed (.ok operation), exchange.committed i sent operation)

def withControl (exchange : Exchange ι) (i : ι) (control : Control) : Exchange ι :=
  exchange.withSite i { exchange.sites i with control }

/-- One step, with what its calls answer. -/
def step (exchange : Exchange ι) : Action ι → Answer × Exchange ι
  | .submit i operation =>
      let called := (exchange.sites i).control.submit operation
      (.submitted called.1, exchange.withControl i called.2)
  | .beginBatch i =>
      let called := (exchange.sites i).control.beginBatch
      (.begun called.1, exchange.withControl i called.2)
  | .completeBatch i =>
      let called := (exchange.sites i).control.completeBatch
      (.completed called.1, exchange.withControl i called.2)
  | .send i => (.nothing, exchange.withSite i (exchange.sites i).send)
  | .commit i => exchange.commit i
  | .deliver i =>
      ((exchange.sites i).deliver.1, exchange.withSite i (exchange.sites i).deliver.2)

/-- Operations of others are delivered only while no batch is open. -/
def Admits (exchange : Exchange ι) : Action ι → Prop
  | .deliver i => (exchange.sites i).RemoteNext → (exchange.sites i).control.batch = none
  | _ => True

/-- The exchanges that come about in any number of steps and in any order, as long as operations can be
reconciled. -/
inductive Reachable (config : ι → ControlConfig) : Exchange ι → Prop
  | start : Reachable config (start config)
  | step {exchange : Exchange ι} (before : Reachable config exchange) (action : Action ι)
      (admits : exchange.Admits action) (reconciled : ¬(exchange.step action).1.TransformFailed) :
      Reachable config (exchange.step action).2

end Exchange
end CoEdit
