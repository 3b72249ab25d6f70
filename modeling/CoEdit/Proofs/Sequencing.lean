import CoEdit.Proofs.Exchange
import Mathlib.Tactic.SplitIfs

/-!
# Controls agree with the sequencer

A control rewrites the head of its queue one message at a time, the sequencer at once when it commits.
Both come to the same operation (`agrees_with_sequencer`), and no assumption about documents is needed.

The invariant splits the history into what a participant has read and what it has not. Its mail is about
what it has not read, in order (`mail`), and the head of its queue is what the sequencer's copy has
become over what was read (`Flight`).
-/
namespace CoEdit

/-! ## Rebasing -/

theorem rebase_append {front : List Operation} {operation middle : Operation}
    (h : rebase front operation = .ok middle) (back : List Operation) :
    rebase (front ++ back) operation = rebase back middle := by
  induction front generalizing operation with
  | nil =>
      cases h
      rfl
  | cons first rest ih =>
      rw [List.cons_append, rebase]
      rw [rebase] at h
      cases htransform : first.transform operation with
      | error e =>
          rw [htransform] at h
          cases h
      | ok pair =>
          rw [htransform] at h
          exact ih h

theorem rebase_cons {first operation passed adjusted : Operation}
    (h : first.transform operation = .ok (passed, adjusted)) (rest : List Operation) :
    rebase (first :: rest) operation = rebase rest adjusted := by
  rw [rebase, h]
  rfl

/-- Reconciling with a queue treats its head as the sequencer does. -/
theorem exists_of_reconcileQueue {incoming adjusted head : Operation} {sequence : Nat}
    {rest pending : List (Nat × Operation)}
    (h : reconcileQueue incoming ((sequence, head) :: rest) = .ok (adjusted, pending)) :
    ∃ passed head' rest', incoming.transform head = .ok (passed, head') ∧
      pending = (sequence, head') :: rest' := by
  rw [reconcileQueue] at h
  cases htransform : incoming.transform head with
  | error e =>
      rw [htransform] at h
      cases h
  | ok pair =>
      rcases pair with ⟨passed, head'⟩
      rw [htransform] at h
      simp only [bind, Except.bind] at h
      cases hrest : reconcileQueue passed rest with
      | error e =>
          rw [hrest] at h
          cases h
      | ok left =>
          rw [hrest] at h
          cases h
          exact ⟨passed, head', left.2, rfl, rfl⟩

/-! ## Calls that at most enqueue -/

namespace Control

/-- Whether `next` differs at most by what was put behind the queue and collected in a batch. -/
structure Extends (control next : Control) : Prop where
  version : next.contextVersion = control.contextVersion
  clear : next.resyncRequired = control.resyncRequired
  pending : ∃ extra, next.pending = control.pending ++ extra

theorem extends_enqueue (control : Control) (operation : Operation) :
    control.Extends (control.enqueue operation).2 := by
  unfold enqueue
  split_ifs with hfull
  · exact ⟨rfl, rfl, [], (List.append_nil _).symm⟩
  · exact ⟨rfl, rfl, _, rfl⟩

theorem extends_submit (control : Control) (operation : Operation) :
    control.Extends (control.submit operation).2 := by
  unfold submit
  split_ifs with hresync
  · exact ⟨rfl, rfl, [], (List.append_nil _).symm⟩
  · split
    · exact ⟨rfl, rfl, [], (List.append_nil _).symm⟩
    · exact control.extends_enqueue operation

theorem extends_beginBatch (control : Control) : control.Extends control.beginBatch.2 := by
  unfold beginBatch
  split <;> exact ⟨rfl, rfl, [], (List.append_nil _).symm⟩

theorem extends_completeBatch (control : Control) : control.Extends control.completeBatch.2 := by
  unfold completeBatch
  split
  · exact ⟨rfl, rfl, [], (List.append_nil _).symm⟩
  · dsimp only
    split_ifs with hempty
    · exact ⟨rfl, rfl, [], (List.append_nil _).symm⟩
    · obtain ⟨hversion, hclear, hpending⟩ := extends_enqueue { control with batch := none } _
      exact ⟨hversion, hclear, hpending⟩

end Control

namespace Exchange

/-! ## The operation in flight -/

section Flight

variable {ι : Type} {i : ι} {site other : Site} {read unread : List (Entry ι)} {entry : Entry ι}

/-- Where the head of a participant's queue is on its way. The participant has taken the messages about
`read` and not yet those about `unread`. -/
inductive Flight (i : ι) (site : Site) (read unread : List (Entry ι)) : Prop
  /-- It was not sent. -/
  | idle (inFlight : site.inFlight = none) (uplink : site.uplink = none)
      (foreign : ∀ entry ∈ unread, entry.site ≠ i)
  /-- It is on its way to the sequencer, and was rebased here over what was read since. -/
  | sent {out : Outgoing} {old since : List (Entry ι)} {head : Operation}
      {rest : List (Nat × Operation)} (inFlight : site.inFlight = some out.sequence)
      (uplink : site.uplink = some out)
      (pending : site.control.pending = (out.sequence, head) :: rest) (split : read = old ++ since)
      (version : old.length = out.contextVersion)
      (rebased : rebase (since.map Entry.operation) out.operation = .ok head)
      (foreign : ∀ entry ∈ unread, entry.site ≠ i)
  /-- It was committed, and is still to be rebased here over what comes before the acknowledgement. -/
  | committed {front back : List (Entry ι)} {own : Entry ι} {head : Operation}
      {rest : List (Nat × Operation)} (inFlight : site.inFlight = some own.sequence)
      (uplink : site.uplink = none)
      (pending : site.control.pending = (own.sequence, head) :: rest)
      (split : unread = front ++ own :: back) (mine : own.site = i)
      (rebased : rebase (front.map Entry.operation) head = .ok own.operation)
      (foreign : ∀ entry ∈ front ++ back, entry.site ≠ i)

theorem Flight.enqueue (h : Flight i site read unread) {extra : List (Nat × Operation)}
    (hinFlight : other.inFlight = site.inFlight) (huplink : other.uplink = site.uplink)
    (hpending : other.control.pending = site.control.pending ++ extra) :
    Flight i other read unread := by
  cases h with
  | idle inFlight uplink foreign =>
      exact .idle (hinFlight.trans inFlight) (huplink.trans uplink) foreign
  | sent inFlight uplink pending split version rebased foreign =>
      rw [pending] at hpending
      exact .sent (hinFlight.trans inFlight) (huplink.trans uplink) hpending split version rebased
        foreign
  | committed inFlight uplink pending split mine rebased foreign =>
      rw [pending] at hpending
      exact .committed (hinFlight.trans inFlight) (huplink.trans uplink) hpending split mine rebased
        foreign

theorem Flight.append (h : Flight i site read unread) (hentry : entry.site ≠ i) :
    Flight i site read (unread ++ [entry]) := by
  have hall {entries : List (Entry ι)} (hentries : ∀ e ∈ entries, e.site ≠ i) :
      ∀ e ∈ entries ++ [entry], e.site ≠ i := by
    intro e he
    rcases List.mem_append.1 he with he | he
    · exact hentries e he
    · rw [List.mem_singleton.1 he]
      exact hentry
  cases h with
  | idle inFlight uplink foreign => exact .idle inFlight uplink (hall foreign)
  | sent inFlight uplink pending split version rebased foreign =>
      exact .sent inFlight uplink pending split version rebased (hall foreign)
  | @committed front back own head rest inFlight uplink pending split mine rebased foreign =>
      have hsplit : unread ++ [entry] = front ++ own :: (back ++ [entry]) := by
        rw [split, List.append_assoc, List.cons_append]
      refine .committed inFlight uplink pending hsplit mine rebased ?_
      rw [← List.append_assoc]
      exact hall foreign

theorem Flight.reconcile (h : Flight i site read (entry :: unread)) (hentry : entry.site ≠ i)
    {operation : Operation} {pending : List (Nat × Operation)}
    (hqueue : reconcileQueue entry.operation site.control.pending = .ok (operation, pending))
    (hinFlight : other.inFlight = site.inFlight) (huplink : other.uplink = site.uplink)
    (hpending : other.control.pending = pending) : Flight i other (read ++ [entry]) unread := by
  cases h with
  | idle inFlight uplink foreign =>
      exact .idle (hinFlight.trans inFlight) (huplink.trans uplink) (List.forall_mem_cons.1 foreign).2
  | @sent out old since head rest inFlight uplink queue split version rebased foreign =>
      rw [queue] at hqueue
      obtain ⟨passed, head', rest', htransform, rfl⟩ := exists_of_reconcileQueue hqueue
      have hsplit : read ++ [entry] = old ++ (since ++ [entry]) := by
        rw [split, List.append_assoc]
      have hrebased : rebase ((since ++ [entry]).map Entry.operation) out.operation = .ok head' := by
        rw [List.map_append, rebase_append rebased]
        exact rebase_cons htransform []
      exact .sent (hinFlight.trans inFlight) (huplink.trans uplink) hpending hsplit version hrebased
        (List.forall_mem_cons.1 foreign).2
  | @committed front back own head rest inFlight uplink queue split mine rebased foreign =>
      cases front with
      | nil =>
          cases split
          exact absurd mine hentry
      | cons first front =>
          cases split
          rw [queue] at hqueue
          obtain ⟨passed, head', rest', htransform, rfl⟩ := exists_of_reconcileQueue hqueue
          rw [List.map_cons, rebase_cons htransform] at rebased
          exact .committed (hinFlight.trans inFlight) (huplink.trans uplink) hpending rfl mine rebased
            (List.forall_mem_cons.1 foreign).2

end Flight

/-! ## Mail -/

variable {ι : Type} [DecidableEq ι] {i : ι} {site : Site} {read unread : List (Entry ι)}
  {entry : Entry ι}

/-- What participant `i` is told of entries of which the first one leads on from `version`. -/
def mail (i : ι) : Nat → List (Entry ι) → List Message
  | _, [] => []
  | version, entry :: rest => message i version entry :: mail i (version + 1) rest

theorem mail_append (version : Nat) (front : List (Entry ι)) :
    mail i version (front ++ [entry]) =
      mail i version front ++ [message i (version + front.length) entry] := by
  induction front generalizing version with
  | nil => rfl
  | cons first rest ih =>
      simp only [List.cons_append, mail, ih, List.length_cons]
      rw [Nat.add_assoc, Nat.add_comm 1]

/-- How a participant stands to the history, of which it has read a part. -/
structure Follows (i : ι) (site : Site) (read unread : List (Entry ι)) : Prop where
  processed : site.processed = read.length
  version : site.control.contextVersion = read.length
  inbox : site.inbox = mail i read.length unread
  clear : site.control.resyncRequired = false
  flight : Flight i site read unread

namespace Follows

theorem start (i : ι) (config : ControlConfig) :
    Follows i ⟨.start config 0, none, none, [], 0⟩ [] [] :=
  ⟨rfl, rfl, rfl, rfl, .idle rfl rfl (by simp)⟩

variable (h : Follows i site read unread)
include h

theorem enqueue {control : Control} (hcontrol : site.control.Extends control) :
    Follows i { site with control } read unread := by
  obtain ⟨extra, hpending⟩ := hcontrol.pending
  exact ⟨h.processed, hcontrol.version.trans h.version, h.inbox, hcontrol.clear.trans h.clear,
    h.flight.enqueue rfl rfl hpending⟩

/-- What is sent was not rebased over anything yet. -/
theorem send : Follows i site.send read unread := by
  unfold Site.send
  split
  · rename_i sequence operation rest hinFlight hpending
    refine ⟨h.processed, h.version, h.inbox, h.clear, ?_⟩
    cases h.flight with
    | idle inFlight uplink foreign =>
        exact .sent rfl rfl hpending (show read = read ++ [] from (List.append_nil _).symm)
          h.version.symm rfl foreign
    | sent inFlight => rw [hinFlight] at inFlight; cases inFlight
    | committed inFlight => rw [hinFlight] at inFlight; cases inFlight
  · exact h

theorem append (hentry : entry.site ≠ i) :
    Follows i (site.post (message i (read ++ unread).length entry)) read (unread ++ [entry]) := by
  refine ⟨h.processed, h.version, ?_, h.clear,
    (h.flight.append hentry).enqueue rfl rfl (List.append_nil _).symm⟩
  rw [Site.post, h.inbox, mail_append, List.length_append]

/-- What is left of the head of the queue at the sequencer: it has yet to meet what is unread. -/
theorem exists_head {sent : Outgoing} (hsent : site.uplink = some sent) :
    ∃ head rest, site.inFlight = some sent.sequence ∧
      site.control.pending = (sent.sequence, head) :: rest ∧
      (∀ entry ∈ unread, entry.site ≠ i) ∧
      rebase (((read ++ unread).drop sent.contextVersion).map Entry.operation) sent.operation =
        rebase (unread.map Entry.operation) head := by
  cases h.flight with
  | idle _ uplink => rw [hsent] at uplink; cases uplink
  | committed _ uplink => rw [hsent] at uplink; cases uplink
  | @sent out old since head rest inFlight uplink pending split version rebased foreign =>
      rw [hsent] at uplink
      cases uplink
      refine ⟨head, rest, inFlight, pending, foreign, ?_⟩
      rw [split, List.append_assoc, ← version, List.drop_left, List.map_append]
      exact rebase_append rebased _

theorem commit {sent : Outgoing} {operation : Operation} (hsent : site.uplink = some sent)
    (hrebase : rebase (((read ++ unread).drop sent.contextVersion).map Entry.operation)
      sent.operation = .ok operation) :
    Follows i ({ site with uplink := none }.post
      (message i (read ++ unread).length ⟨i, sent.sequence, operation⟩))
      read (unread ++ [⟨i, sent.sequence, operation⟩]) := by
  refine ⟨h.processed, h.version, ?_, h.clear, ?_⟩
  · rw [Site.post, h.inbox, mail_append, List.length_append]
  · obtain ⟨head, rest, hinFlight, hpending, hforeign, hhead⟩ := h.exists_head hsent
    rw [hhead] at hrebase
    let own : Entry ι := ⟨i, sent.sequence, operation⟩
    have hsplit : unread ++ [own] = unread ++ own :: [] := rfl
    refine .committed (show _ = some own.sequence from hinFlight) rfl hpending hsplit rfl hrebase ?_
    rw [List.append_nil]
    exact hforeign

omit h

theorem deliver_own (h : Follows i site read (entry :: unread)) (hentry : entry.site = i) :
    site.deliver.1 = .acknowledged entry.sequence read.length (.ok entry.operation) ∧
      Follows i site.deliver.2 (read ++ [entry]) unread := by
  cases h.flight with
  | idle _ _ foreign => exact absurd hentry (foreign entry List.mem_cons_self)
  | sent _ _ _ _ _ _ foreign => exact absurd hentry (foreign entry List.mem_cons_self)
  | @committed front back own head rest inFlight uplink pending split mine rebased foreign =>
      cases front with
      | cons first front =>
          cases split
          exact absurd hentry (foreign entry List.mem_cons_self)
      | nil =>
          cases split
          cases rebased
          have hinbox := h.inbox
          rw [mail, message, if_pos hentry] at hinbox
          have hacknowledge : site.control.acknowledge entry.sequence read.length =
              (.ok entry.operation, { site.control with
                pending := rest, contextVersion := site.control.contextVersion + 1 }) := by
            simp [Control.acknowledge, pending, h.version]
          simp only [Site.deliver, hinbox, hacknowledge]
          refine ⟨trivial, ?_, ?_, ?_, h.clear, .idle rfl uplink foreign⟩
          · rw [h.processed, List.length_append, List.length_singleton]
          · rw [h.version, List.length_append, List.length_singleton]
          · rw [List.length_append, List.length_singleton]

/-- Whoever reconciles an entry of somebody else with the queue rebases the head by it. -/
theorem deliver_foreign (h : Follows i site read (entry :: unread)) (hentry : entry.site ≠ i)
    (hbatch : site.control.batch = none) (hreconciled : ¬site.deliver.1.TransformFailed) :
    (∃ operation, site.deliver.1 = .received ⟨read.length, entry.operation⟩ (.ok operation)) ∧
      Follows i site.deliver.2 (read ++ [entry]) unread := by
  have hinbox := h.inbox
  rw [mail, message, if_neg hentry] at hinbox
  cases hqueue : reconcileQueue entry.operation site.control.pending with
  | error e =>
      refine absurd ?_ hreconciled
      simp [Site.deliver, hinbox, Control.receive, h.clear, hbatch, h.version, hqueue,
        Answer.TransformFailed]
  | ok left =>
      rcases left with ⟨operation, pending'⟩
      have hreceive : site.control.receive ⟨read.length, entry.operation⟩ =
          (.ok operation, { site.control with
            pending := pending', contextVersion := site.control.contextVersion + 1 }) := by
        simp [Control.receive, h.clear, hbatch, h.version, hqueue]
      simp only [Site.deliver, hinbox, hreceive]
      refine ⟨⟨operation, rfl⟩, ?_, ?_, ?_, h.clear, ?_⟩
      · rw [h.processed, List.length_append, List.length_singleton]
      · rw [h.version, List.length_append, List.length_singleton]
      · rw [List.length_append, List.length_singleton]
      · exact h.flight.reconcile hentry hqueue rfl rfl rfl

end Follows

/-! ## Runs -/

variable {exchange : Exchange ι} {j : ι}

/-- Every participant has read a part of the history and follows the rest of it. -/
def Followed (exchange : Exchange ι) : Prop :=
  ∀ i, ∃ read unread, exchange.history = read ++ unread ∧ Follows i (exchange.sites i) read unread

theorem Followed.withSite (h : exchange.Followed)
    (hsite : ∃ read unread, exchange.history = read ++ unread ∧ Follows i site read unread) :
    (exchange.withSite i site).Followed := by
  intro j
  by_cases hj : j = i
  · rw [hj, withSite_self]
    exact hsite
  · rw [withSite_of_ne exchange hj]
    exact h j

theorem Follows.committed {sent : Outgoing} {operation : Operation}
    (h : Follows j (exchange.sites j) read unread) (hhistory : exchange.history = read ++ unread)
    (hsent : (exchange.sites i).uplink = some sent)
    (hrebase : rebase (exchange.since sent.contextVersion) sent.operation = .ok operation) :
    Follows j ((exchange.committed i sent operation).sites j) read
      (unread ++ [⟨i, sent.sequence, operation⟩]) := by
  rw [since, hhistory] at hrebase
  rw [Exchange.committed, append_sites, history_withSite, hhistory]
  by_cases hj : j = i
  · subst hj
    rw [withSite_self]
    exact h.commit hsent hrebase
  · rw [withSite_of_ne exchange hj]
    exact h.append (Ne.symm hj)

theorem Followed.commit (h : exchange.Followed) {sent : Outgoing} {operation : Operation}
    (hsent : (exchange.sites i).uplink = some sent)
    (hrebase : rebase (exchange.since sent.contextVersion) sent.operation = .ok operation) :
    (exchange.committed i sent operation).Followed := by
  intro j
  obtain ⟨read, unread, hhistory, hfollows⟩ := h j
  refine ⟨read, _, ?_, hfollows.committed hhistory hsent hrebase⟩
  rw [committed, history_append, history_withSite, hhistory, List.append_assoc]

/-- Whether participant `i` is answered as it should be: an operation of somebody else is reconciled,
and what is acknowledged is exactly what the sequencer committed for it. -/
def Fulfils (exchange : Exchange ι) (i : ι) : Answer → Prop
  | .acknowledged sequence version answer => ∃ operation, answer = .ok operation ∧
      exchange.history[version]? = some ⟨i, sequence, operation⟩
  | .received incoming answer => ∃ operation entry, answer = .ok operation ∧
      exchange.history[incoming.version]? = some entry ∧ entry.site ≠ i ∧
      entry.operation = incoming.operation
  | _ => True

/-- One step. -/
theorem Followed.step (h : exchange.Followed) {action : Action ι} (hadmits : exchange.Admits action)
    (hreconciled : ¬(exchange.step action).1.TransformFailed) :
    exchange.Fulfils action.site (exchange.step action).1 ∧ (exchange.step action).2.Followed := by
  obtain ⟨read, unread, hhistory, hfollows⟩ := h action.site
  cases action with
  | submit i operation =>
      exact ⟨trivial, h.withSite ⟨read, unread, hhistory,
        hfollows.enqueue (Control.extends_submit _ _)⟩⟩
  | beginBatch i =>
      exact ⟨trivial, h.withSite ⟨read, unread, hhistory,
        hfollows.enqueue (Control.extends_beginBatch _)⟩⟩
  | completeBatch i =>
      exact ⟨trivial, h.withSite ⟨read, unread, hhistory,
        hfollows.enqueue (Control.extends_completeBatch _)⟩⟩
  | send i => exact ⟨trivial, h.withSite ⟨read, unread, hhistory, hfollows.send⟩⟩
  | commit i =>
      simp only [Exchange.step, Exchange.commit] at hreconciled ⊢
      cases hsent : (exchange.sites i).uplink with
      | none =>
          rw [hsent] at hreconciled
          exact ⟨trivial, h⟩
      | some sent =>
          rw [hsent] at hreconciled
          dsimp only at hreconciled ⊢
          cases hrebase : rebase (exchange.since sent.contextVersion) sent.operation with
          | error e =>
              rw [hrebase] at hreconciled
              exact absurd trivial hreconciled
          | ok operation => exact ⟨trivial, h.commit hsent hrebase⟩
  | deliver i =>
      have hfollows : Follows i (exchange.sites i) read unread := hfollows
      cases unread with
      | nil =>
          have hinbox : (exchange.sites i).inbox = [] := hfollows.inbox
          have hdeliver : (exchange.sites i).deliver = (.nothing, exchange.sites i) := by
            rw [Site.deliver, hinbox]
          rw [Exchange.step, hdeliver]
          exact ⟨trivial, h.withSite ⟨read, [], hhistory, hfollows⟩⟩
      | cons entry unread =>
          have hentry : exchange.history[read.length]? = some entry := by
            rw [hhistory, List.getElem?_append_right (Nat.le_refl _), Nat.sub_self, List.getElem?_cons_zero]
          have hsplit : exchange.history = (read ++ [entry]) ++ unread := by
            rw [hhistory, List.append_assoc, List.singleton_append]
          by_cases hmine : entry.site = i
          · obtain ⟨hanswer, hnext⟩ := hfollows.deliver_own hmine
            refine ⟨?_, h.withSite ⟨_, _, hsplit, hnext⟩⟩
            rw [Exchange.step, hanswer]
            exact ⟨entry.operation, rfl, by rw [hentry, ← hmine]; rfl⟩
          · have hinbox := hfollows.inbox
            rw [mail, message, if_neg hmine] at hinbox
            obtain ⟨⟨operation, hanswer⟩, hnext⟩ :=
              hfollows.deliver_foreign hmine (hadmits ⟨_, _, hinbox⟩) hreconciled
            refine ⟨?_, h.withSite ⟨_, _, hsplit, hnext⟩⟩
            rw [Exchange.step, hanswer]
            exact ⟨operation, entry, rfl, hentry, hmine, rfl⟩

theorem Reachable.followed {config : ι → ControlConfig} (h : Reachable config exchange) :
    exchange.Followed := by
  induction h with
  | start => exact fun i => ⟨[], [], rfl, .start i (config i)⟩
  | step _ _ admits reconciled ih => exact (ih.step admits reconciled).2

theorem mail_length (version : Nat) (entries : List (Entry ι)) :
    (mail i version entries).length = entries.length := by
  induction entries generalizing version with
  | nil => rfl
  | cons _ rest ih => rw [mail, List.length_cons, List.length_cons, ih]

/-- Controls and sequencer come to the same operations. In whatever order things happen, as long as
operations can be reconciled, no version is ever missed and no acknowledgement unexpected; what is
acknowledged is what was committed; and each control has reached the version after the entries that it
was told of. -/
theorem agrees_with_sequencer {config : ι → ControlConfig} (h : Reachable config exchange) :
    (∀ i, (exchange.sites i).control.contextVersion = (exchange.sites i).processed ∧
      (exchange.sites i).processed + (exchange.sites i).inbox.length = exchange.history.length) ∧
    ∀ action, exchange.Admits action → ¬(exchange.step action).1.TransformFailed →
      exchange.Fulfils action.site (exchange.step action).1 := by
  refine ⟨fun i => ?_, fun action hadmits hreconciled =>
    (h.followed.step hadmits hreconciled).1⟩
  obtain ⟨read, unread, hhistory, hfollows⟩ := h.followed i
  rw [hfollows.version, hfollows.processed, hfollows.inbox, mail_length, hhistory,
    List.length_append]
  exact ⟨rfl, rfl⟩

def takeItem (index : Nat) : Operation :=
  .discrete ⟨"list", .array (.remove index), false⟩

/-- Two participants take an item each out of one list. One of them has sent its operation when that of
the other is committed. -/
def crossing : List (Action Bool) :=
  [.submit true (takeItem 3), .submit false (takeItem 1), .send true, .send false, .commit false,
    .commit true, .deliver true]

theorem agrees_with_sequencer_crossing :
    ∃ exchange, exchange = crossing.foldl (fun exchange action => (exchange.step action).2)
        (start fun _ => .standard) ∧
      exchange.history = [⟨false, 0, takeItem 1⟩, ⟨true, 0, takeItem 2⟩] ∧
      (exchange.step (.deliver true)).1 = .acknowledged 0 1 (.ok (takeItem 2)) ∧
      (∀ i, (exchange.sites i).control.contextVersion = (exchange.sites i).processed ∧
        (exchange.sites i).processed + (exchange.sites i).inbox.length =
          exchange.history.length) ∧
      ∀ action, exchange.Admits action → ¬(exchange.step action).1.TransformFailed →
        exchange.Fulfils action.site (exchange.step action).1 := by
  have hstart : Reachable (fun _ : Bool => .standard) (start fun _ => .standard) := .start
  have hsubmitted := (hstart.step (.submit true (takeItem 3)) trivial id).step
    (.submit false (takeItem 1)) trivial id
  have hsent := (hsubmitted.step (.send true) trivial id).step (.send false) trivial id
  have hcommitted := (hsent.step (.commit false) trivial id).step (.commit true) trivial id
  have hdelivered := hcommitted.step (.deliver true) (fun _ => rfl) id
  exact ⟨_, rfl, rfl, rfl, agrees_with_sequencer hdelivered⟩

end Exchange
end CoEdit
