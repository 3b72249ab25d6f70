import CoEdit.Proofs.Client
import CoEdit.Proofs.Sequencing

/-!
# Stages of the server's document

A stage is the server's document at one version, with the shadow that it shows and the elements that
were ever in use up to it. Committed operations lead from stage to stage. An operation that a stage
allows can be rebased over all operations that lead on from it, and is allowed by the stage to which
they lead (`Allows.exists_rebase`).
-/
namespace CoEdit
open Client Document

/-- The server's document at one version. -/
structure Stage where
  document : Document
  shadow : Shadow
  /-- The elements that were in use at this version or an earlier one. -/
  known : ElementId → Prop

namespace Stage

variable {base : Shadow} {stage next last : Stage} {operation head : Operation}
  {edits left : List Edit} {operations : List Operation}

/-- The document shows the shadow, and what is not known is as told by `base`. -/
structure Stands (base : Shadow) (stage : Stage) : Prop where
  shows : stage.document.Shows stage.shadow
  numeric : stage.shadow.Numeric
  known : ∀ id, stage.document.contains id = true → stage.known id
  untouched : ∀ id, ¬stage.known id → stage.shadow id = base id

/-- Whether edits can be made at this stage: they fit the shadow, bring along what is new and are aimed
at nothing that comes only later. -/
structure Allows (base : Shadow) (stage : Stage) (edits : List Edit) : Prop where
  novel : Novel base stage.known edits
  ordered : Ordered edits
  aimed : Aimed (knownAfter stage.known edits) edits
  run : ∃ after, stage.shadow.run? edits = some after

/-- An operation leads to the next stage. -/
structure Leads (base : Shadow) (stage : Stage) (operation : Operation) (next : Stage) : Prop where
  allows : stage.Allows base operation.edits
  run : stage.shadow.run? operation.edits = some next.shadow
  takes : stage.document.Takes operation next.document
  root : next.document.root = stage.document.root
  known : next.known = knownAfter stage.known operation.edits

/-- Operations lead from stage to stage. -/
inductive LeadsAll (base : Shadow) : Stage → List Operation → Stage → Prop
  | nil (stage : Stage) : LeadsAll base stage [] stage
  | cons {stage next last : Stage} {operation : Operation} {rest : List Operation}
      (first : stage.Leads base operation next) (after : LeadsAll base next rest last) :
      LeadsAll base stage (operation :: rest) last

theorem Allows.ready (h : stage.Allows base edits) (hstands : stage.Stands base) :
    stage.document.Ready stage.shadow edits :=
  ⟨h.novel.brings hstands.known hstands.untouched, h.ordered⟩

/-- Whatever is allowed leads on. -/
theorem Allows.exists_leads (h : stage.Allows base operation.edits) (hstands : stage.Stands base) :
    ∃ next, stage.Leads base operation next := by
  obtain ⟨after, hrun⟩ := h.run
  obtain ⟨document, htakes, -, hroot, -⟩ := hstands.shows.takes (h.ready hstands) hrun
  exact ⟨⟨document, after, knownAfter stage.known operation.edits⟩, h, hrun, htakes, hroot, rfl⟩

theorem Leads.stands (h : stage.Leads base operation next) (hstands : stage.Stands base) :
    next.Stands base := by
  have hready := h.allows.ready hstands
  obtain ⟨document, htakes, hshows, -, hgains⟩ := hstands.shows.takes hready h.run
  rw [htakes.unique h.takes] at hshows hgains
  refine ⟨hshows, hstands.numeric.run? hready.legal h.run, ?_, fun id hid => ?_⟩
  · rw [h.known]
    exact knownAfter_of_gains hstands.known hgains
  · rw [h.known] at hid
    rw [h.allows.aimed.frame h.run hid]
    exact hstands.untouched id fun hknown => hid (.inl hknown)

/-- An operation that was allowed before a concurrent one is allowed behind it, in the form in which
reconciling leaves it. -/
theorem Allows.exists_transform (h : stage.Allows base head.edits)
    (hleads : stage.Leads base operation next)
    (hapart : ∀ id ∈ arrivalIds operation.edits, id ∉ arrivalIds head.edits)
    (hadds : ∀ e ∈ operation.edits, ∀ f ∈ head.edits, ∀ id, e.AddsTo id → ¬f.AddsTo id) :
    ∃ passed adjusted, operation.transform head = .ok (passed, adjusted) ∧
      RebasedAll head.edits adjusted.edits ∧ next.Allows base adjusted.edits := by
  have hreconcilable : Reconcilable operation.edits head.edits := fun e he f hf =>
    ⟨hleads.allows.novel.legal e he, h.novel.legal f hf, hadds e he f hf⟩
  obtain ⟨after, hrun⟩ := h.run
  obtain ⟨passed, adjusted, joined, htransform, hadjusted, -, -, hrebased⟩ :=
    Operation.exists_transform hreconcilable hleads.run hrun
  refine ⟨passed, adjusted, htransform, hrebased, ⟨?_, ?_, ?_, ?_⟩, h.ordered.rebased hrebased, ?_,
    joined, hadjusted⟩
  · intro e he
    obtain ⟨original, hmem, hleft⟩ := hrebased.exists_of_mem he
    exact hleft.change.legal (h.novel.legal original hmem)
  · rw [hrebased.arrivalIds_eq]
    exact h.novel.nodup
  · intro id hid hknown
    rw [hrebased.arrivalIds_eq] at hid
    rw [hleads.known] at hknown
    exact hknown.elim (h.novel.new id hid) fun hmem => hapart id hmem hid
  · rw [hrebased.arrivals_eq]
    exact h.novel.told
  · intro e he hactive
    rw [hleads.known]
    rcases h.aimed.rebased hrebased e he hactive with hknown | hown
    · exact .inl (.inl hknown)
    · rw [knownAfter, hrebased.arrivalIds_eq]
      exact .inr hown

namespace LeadsAll

theorem append (h : LeadsAll base stage operations last) (hlast : last.Leads base operation next) :
    LeadsAll base stage (operations ++ [operation]) next := by
  induction h with
  | nil => exact .cons hlast (.nil next)
  | cons hfirst _ ih => exact .cons hfirst (ih hlast)

theorem known (h : LeadsAll base stage operations last) {id : ElementId} (hid : stage.known id) :
    last.known id := by
  induction h with
  | nil => exact hid
  | cons hfirst _ ih =>
      refine ih ?_
      rw [hfirst.known]
      exact .inl hid

end LeadsAll

/-- An operation that a stage allows can be rebased over everything that leads on from there. -/
theorem Allows.exists_rebase (h : stage.Allows base head.edits)
    (hleads : LeadsAll base stage operations last)
    (hapart : ∀ operation ∈ operations, ∀ id ∈ arrivalIds operation.edits,
      id ∉ arrivalIds head.edits)
    (hadds : ∀ operation ∈ operations, ∀ e ∈ operation.edits, ∀ f ∈ head.edits, ∀ id,
      e.AddsTo id → ¬f.AddsTo id) :
    ∃ rebased, rebase operations head = .ok rebased ∧ RebasedAll head.edits rebased.edits ∧
      last.Allows base rebased.edits := by
  induction hleads generalizing head with
  | nil => exact ⟨head, rfl, .refl _, h⟩
  | cons hfirst _ ih =>
      rw [List.forall_mem_cons] at hapart hadds
      obtain ⟨passed, adjusted, htransform, hadjusted, hallows⟩ :=
        h.exists_transform hfirst hapart.1 hadds.1
      obtain ⟨rebased, hrebase, hrebased, hlast⟩ := ih hallows
        (fun operation hmem id hid => by
          rw [hadjusted.arrivalIds_eq]
          exact hapart.2 operation hmem id hid)
        (fun operation hmem e he f hf id hadd hadd' => by
          obtain ⟨original, horiginal, hleft⟩ := hadjusted.exists_of_mem hf
          exact hadds.2 operation hmem e he original horiginal id hadd (hleft.addsTo hadd'))
      exact ⟨rebased, by rw [rebase_cons htransform, hrebase], hadjusted.trans hrebased, hlast⟩

end Stage
end CoEdit
