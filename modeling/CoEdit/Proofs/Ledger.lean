import CoEdit.Proofs.Stage

/-!
# Participants beside stages

A participant that has read a part of the history stands beside the stage to which that part leads, as a
client beside its server (`Keeps`). The head of its queue is allowed at that stage, and whatever leads
to the next stage takes the participant along, be it acknowledged or somebody else's.
-/
namespace CoEdit
open Document Client

/-- What is fixed for a whole run: what elements still to come show, which of them each participant
brings along, and to which numbers it adds. -/
structure Ledger (ι : Type) where
  base : Shadow
  born : ι → ElementId → Prop
  adds : ι → ElementId → Prop
  born_apart : ∀ {i j}, i ≠ j → ∀ id, born i id → ¬born j id
  adds_apart : ∀ {i j}, i ≠ j → ∀ id, adds i id → ¬adds j id

variable {ι : Type} {ledger : Ledger ι} {i : ι} {document : Document} {control : Control}
  {stage next : Stage}

/-- Whether edits bring along and add to nothing but what is down to participant `i`. -/
structure Ledger.Lists (ledger : Ledger ι) (i : ι) (edits : List Edit) : Prop where
  born : ∀ id ∈ arrivalIds edits, ledger.born i id
  adds : Adding (ledger.adds i) edits

theorem Ledger.Lists.rebased {edits left : List Edit} (h : ledger.Lists i edits)
    (hleft : RebasedAll edits left) : ledger.Lists i left :=
  ⟨hleft.arrivalIds_eq ▸ h.born, h.adds.rebased hleft⟩

/-- Participant `i` stands beside a stage as a client beside its server. -/
structure Keeps (ledger : Ledger ι) (i : ι) (document : Document) (control : Control)
    (stage : Stage) : Prop where
  stands : stage.Stands ledger.base
  tracks : ∃ after, Tracks ⟨document, control, stage.document⟩ ledger.base stage.shadow after
    (knownAfter stage.known control.parts) (ledger.adds i)
  new : ∀ id ∈ arrivalIds control.parts, ¬stage.known id
  born : ∀ id ∈ arrivalIds control.parts, ledger.born i id

namespace Keeps

variable (h : Keeps ledger i document control stage)
include h

theorem clear : control.resyncRequired = false := by
  obtain ⟨_, htracks⟩ := h.tracks
  exact htracks.clear

theorem allows_head {sequence : Nat} {head : Operation} {rest : List (Nat × Operation)}
    (hpending : control.pending = (sequence, head) :: rest) :
    stage.Allows ledger.base head.edits ∧ ledger.Lists i head.edits := by
  obtain ⟨after, htracks⟩ := h.tracks
  have hrun := htracks.run
  have hready := htracks.ready
  have haimed := htracks.aimed
  have hadding := htracks.adding
  have hnew := h.new
  have hborn := h.born
  have hparts : control.parts = head.edits ++ (queueEdits rest ++ control.batch.getD []) := by
    rw [Control.parts, hpending, queueEdits, List.flatMap_cons, List.append_assoc]
    rfl
  simp only [hparts] at hrun hready haimed hadding hnew hborn
  obtain ⟨middle, hmiddle, -⟩ := Shadow.run?_append_eq_some.1 hrun
  have hleft := hready.left
  rw [arrivalIds_append] at hnew hborn
  have hnew' : ∀ id ∈ arrivalIds head.edits, ¬stage.known id :=
    fun id hid => hnew id (List.mem_append_left _ hid)
  refine ⟨⟨⟨hleft.legal, hleft.nodup, hnew', fun x hx => ?_⟩, hleft.ordered, ?_, middle, hmiddle⟩,
    fun id hid => hborn id (List.mem_append_left _ hid),
    fun e he => hadding e (List.mem_append_left _ he)⟩
  · rw [← h.stands.untouched x.id (hnew' x.id (List.mem_map_of_mem hx))]
    exact hleft.told x hx
  · intro e he hactive
    rcases haimed e (List.mem_append_left _ he) hactive with hknown | hown
    · exact .inl hknown
    · rw [arrivalIds_append] at hown
      refine .inr ((List.mem_append.1 hown).resolve_right ?_)
      exact (ordered_append.1 hready.ordered).2.2 e he hactive

theorem submit {operation : Operation} {sent : Option Outgoing}
    (hsent : (control.submit operation).1 = .ok sent) (haccepts : document.Accepts operation.edits)
    (hnovel : Novel ledger.base (knownAfter stage.known control.parts) operation.edits)
    (hlists : ledger.Lists i operation.edits) :
    ∃ next, document.Takes operation next ∧
      Keeps ledger i next (control.submit operation).2 stage := by
  obtain ⟨after, htracks⟩ := h.tracks
  obtain ⟨-, hparts, hclear⟩ := Control.submit_spec hsent
  obtain ⟨next, after', htakes, htracks'⟩ :=
    htracks.edit hnovel haccepts hlists.adds hparts hclear
  rw [knownAfter_append, ← hparts] at htracks'
  refine ⟨next, htakes, h.stands, ⟨after', htracks'⟩, fun id hid => ?_, fun id hid => ?_⟩
  · rw [hparts, arrivalIds_append] at hid
    exact (List.mem_append.1 hid).elim (h.new id) fun hid hknown => hnovel.new id hid (.inl hknown)
  · rw [hparts, arrivalIds_append] at hid
    exact (List.mem_append.1 hid).elim (h.born id) (hlists.born id)

theorem regroup {other : Control} (hparts : other.parts = control.parts)
    (hclear : other.resyncRequired = control.resyncRequired) :
    Keeps ledger i document other stage := by
  obtain ⟨after, htracks⟩ := h.tracks
  have htracks' := htracks.regroup hparts hclear
  rw [← hparts] at htracks'
  exact ⟨h.stands, ⟨after, htracks'⟩, hparts ▸ h.new, hparts ▸ h.born⟩

theorem acknowledge {operation : Operation} {other : Control}
    (hparts : control.parts = operation.edits ++ other.parts)
    (hclear : other.resyncRequired = control.resyncRequired)
    (hleads : stage.Leads ledger.base operation next) : Keeps ledger i document other next := by
  obtain ⟨after, htracks⟩ := h.tracks
  have hnodup := htracks.ready.nodup
  simp only [hparts, arrivalIds_append] at hnodup
  obtain ⟨server, before', hrun, htakes, htracks'⟩ := htracks.acknowledge hparts hclear
  rw [hleads.run] at hrun
  cases hrun
  rw [htakes.unique hleads.takes, hparts, ← knownAfter_append, ← hleads.known] at htracks'
  have hnew := h.new
  have hborn := h.born
  rw [hparts, arrivalIds_append] at hnew hborn
  refine ⟨hleads.stands h.stands, ⟨after, htracks'⟩, fun id hid hknown => ?_,
    fun id hid => hborn id (List.mem_append_right _ hid)⟩
  rw [hleads.known] at hknown
  rcases hknown with hknown | hmem
  · exact hnew id (List.mem_append_right _ hid) hknown
  · exact (List.nodup_append.1 hnodup).2.2 id hmem id hid rfl

/-- An operation of somebody else leads to the next stage and is reconciled with what is pending. -/
theorem receive {operation : Operation} {j : ι} (hj : j ≠ i) (hbatch : control.batch = none)
    (hlists : ledger.Lists j operation.edits) (hleads : stage.Leads ledger.base operation next) :
    ∃ adjusted pending document', reconcileQueue operation control.pending = .ok (adjusted, pending) ∧
      document.Takes adjusted document' ∧
      ∀ other : Control, other.pending = pending → other.batch = none →
        other.resyncRequired = control.resyncRequired →
        arrivalIds other.parts = arrivalIds control.parts ∧
          Keeps ledger i document' other next := by
  obtain ⟨after, htracks⟩ := h.tracks
  have hapart : ∀ id ∈ arrivalIds operation.edits, id ∉ arrivalIds control.parts :=
    fun id hid hmem => ledger.born_apart hj id (hlists.born id hid) (h.born id hmem)
  have hallows := hleads.allows
  have hnovel : Novel ledger.base (knownAfter stage.known control.parts) operation.edits :=
    ⟨hallows.novel.legal, hallows.novel.nodup,
      fun id hid hknown => hknown.elim (hallows.novel.new id hid) (hapart id hid), hallows.novel.told⟩
  have haimed : Aimed (knownAfter (knownAfter stage.known control.parts) operation.edits)
      operation.edits := by
    intro e he hactive
    exact (hallows.aimed e he hactive).imp_left .inl
  have hspares : Spares (arrivalIds control.parts) operation.edits := by
    intro e he hactive hmem
    rcases hallows.aimed e he hactive with hknown | hown
    · exact h.new _ hmem hknown
    · exact hapart _ hown hmem
  obtain ⟨adjusted, pending, document', server, after', hqueue, hrebased, htakes, hserver, hnext⟩ :=
    htracks.receive hbatch hnovel (hallows.ready h.stands) hleads.run haimed hspares
      fun e he id hadd hadd' => ledger.adds_apart hj id (hlists.adds e he id hadd) hadd'
  have hparts : control.parts = queueEdits control.pending := by
    rw [Control.parts, hbatch, Option.getD_none, List.append_nil]
  refine ⟨adjusted, pending, document', hqueue, htakes, fun other hpending hclosed hclear => ?_⟩
  have hother : other.parts = queueEdits pending := by
    rw [Control.parts, hpending, hclosed, Option.getD_none, List.append_nil]
  have hids : arrivalIds other.parts = arrivalIds control.parts := by
    rw [hother, hrebased.edits.arrivalIds_eq, hparts]
  have htracks' := hnext other hpending hclosed hclear
  rw [hserver.unique hleads.takes, knownAfter_comm, ← hleads.known, hparts,
    ← knownAfter_rebased _ hrebased.edits, ← hother] at htracks'
  refine ⟨hids, hleads.stands h.stands, ⟨after', htracks'⟩, fun id hid hknown => ?_, hids ▸ h.born⟩
  rw [hids] at hid
  rw [hleads.known] at hknown
  exact hknown.elim (h.new id hid) fun hmem => hapart id hmem hid

end Keeps
end CoEdit
