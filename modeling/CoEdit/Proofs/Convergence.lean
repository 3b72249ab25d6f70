import CoEdit.Proofs.Document.Shows

/-!
# Two operations converge

Two operations that were made to one document can be reconciled, and then each can be applied after the
other, with documents that agree as the outcome (`apply_transform_agrees`). The proof runs both
operations on a shadow of the document that already tells what they bring along.
-/
namespace CoEdit.Document

variable {doc : Document} {shadow : Shadow}

/-- The shadow that a document shows and that tells what is still to come. -/
theorem exists_shadow (hdoc : doc.Sound)
    (hfinite : ∀ x ∈ doc.snapshot.preorder, x.view ≠ .number .notANumber) {edits : List Edit}
    (hlegal : ∀ edit ∈ edits, edit.change.Legal) (hnodup : (arrivalIds edits).Nodup)
    (hfresh : ∀ id ∈ arrivalIds edits, doc.contains id = false) :
    ∃ shadow : Shadow, doc.Shows shadow ∧ shadow.Numeric ∧ doc.Brings shadow edits := by
  refine ⟨doc.shadowOver (told (arrivals edits)), hdoc.shows _,
    hdoc.shadowOver_numeric (told_numeric (numeric_of_legal hlegal)) hfinite,
    hlegal, hnodup, hfresh, fun x hx => ?_⟩
  rw [shadowOver_of_not_contains (hfresh x.id (List.mem_map_of_mem hx)), told_id hnodup hx]

/-- Two operations that were made to one document with checked sums, each with its targets attached when their
turns came, can be reconciled. Each can then be applied after the other with checked sums, and the documents agree,
provided that the two bring along different elements, all of them new, and do not both add to one number. -/
theorem apply_transform_agrees {a b : Operation} (hdoc : doc.Reachable)
    (hfinite : doc.snapshot.firstNonFinite? = none)
    (hlegal : ∀ edit ∈ a.edits ++ b.edits, edit.change.Legal)
    (ha : doc.Accepts a.edits) (hb : doc.Accepts b.edits)
    (hnodup : (arrivalIds (a.edits ++ b.edits)).Nodup)
    (hfresh : ∀ id ∈ arrivalIds (a.edits ++ b.edits), doc.contains id = false)
    (hadds : ∀ e ∈ a.edits, ∀ f ∈ b.edits, ∀ id, e.AddsTo id → ¬f.AddsTo id) :
    ∃ a' b' first second left right, a.transform b = .ok (a', b') ∧
      doc.Takes a first ∧ first.Takes b' left ∧ doc.Takes b second ∧ second.Takes a' right ∧
      (left.snapshot == right.snapshot) = true := by
  obtain ⟨shadow, hshows, hnumeric, hbrings⟩ :=
    exists_shadow hdoc.sound (numeric_of_finite hfinite) hlegal hnodup hfresh
  obtain ⟨horderedA, ⟨after₁, hrun₁⟩, htargetsA⟩ := ha.exists_run? hshows hbrings.left
  obtain ⟨horderedB, ⟨after₂, hrun₂⟩, htargetsB⟩ := hb.exists_run? hshows hbrings.right
  have hreadyA : doc.Ready shadow a.edits := ⟨hbrings.left, horderedA⟩
  have hreadyB : doc.Ready shadow b.edits := ⟨hbrings.right, horderedB⟩
  rw [arrivalIds_append] at hnodup hfresh
  have hapart := (List.nodup_append.1 hnodup).2.2
  have hsparesA : Spares (arrivalIds b.edits) a.edits := by
    intro e he hactive hmem
    rcases htargetsA e he hactive with hold | hown
    · rw [hfresh _ (List.mem_append_right _ hmem)] at hold
      cases hold
    · exact hapart _ hown _ hmem rfl
  have hsparesB : Spares (arrivalIds a.edits) b.edits := by
    intro f hf hactive hmem
    rcases htargetsB f hf hactive with hold | hown
    · rw [hfresh _ (List.mem_append_left _ hmem)] at hold
      cases hold
    · exact hapart _ hmem _ hown rfl
  have hreconcilable : Reconcilable a.edits b.edits := fun e he f hf =>
    ⟨hreadyA.legal e he, hreadyB.legal f hf, hadds e he f hf⟩
  obtain ⟨a', b', joined, htransform, hleft, hright, hrebasedA, hrebasedB⟩ :=
    Operation.exists_transform hreconcilable hrun₁ hrun₂
  obtain ⟨first, htakesA, hfirst, hrootA, hgainsA⟩ := hshows.takes hreadyA hrun₁
  obtain ⟨second, htakesB, hsecond, hrootB, hgainsB⟩ := hshows.takes hreadyB hrun₂
  obtain ⟨left, htakesB', hshowsLeft, hrootLeft, -⟩ := hfirst.takes
    (hreadyB.rebased hrebasedB hrun₁ hsparesA
      (hgainsA.fresh hreadyB.fresh fun id hid hmem => hapart id hid id hmem rfl)) hleft
  obtain ⟨right, htakesA', hshowsRight, hrootRight, -⟩ := hsecond.takes
    (hreadyA.rebased hrebasedA hrun₂ hsparesB
      (hgainsB.fresh hreadyA.fresh fun id hid hmem => hapart id hmem id hid rfl)) hright
  refine ⟨a', b', first, second, left, right, htransform, htakesA, htakesB', htakesB, htakesA', ?_⟩
  refine hshowsLeft.agrees hshowsRight (by rw [hrootLeft, hrootA, hrootRight, hrootB]) ?_
  have hlegalB' : ∀ edit ∈ b'.edits, edit.change.Legal := by
    intro e he
    obtain ⟨original, hmem, hrebased⟩ := hrebasedB.exists_of_mem he
    exact hrebased.change.legal (hreadyB.legal original hmem)
  exact (hnumeric.run? hreadyA.legal hrun₁).run? hlegalB' hleft

def listOfText : Document where
  root := "list"
  nodes := [("list", ⟨none, .array ["text"]⟩), ("text", ⟨some "list", .string "ab"⟩)]

theorem reachable_listOfText : listOfText.Reachable := by
  have hmade : ofElement (.mk "list" (.array [.mk "text" (.string "ab")])) = .ok listOfText := rfl
  exact .ofElement (by decide) hmade

def addToList : Operation :=
  .compound [
    ⟨"list", .array (.insert 0 (.mk "item" (.object [("done", .mk "flag" (.boolean true))]))), false⟩,
    ⟨"text", .string (.insert 2 "c"), false⟩]

def removeText : Operation :=
  .discrete ⟨"list", .array (.remove 0), false⟩

theorem apply_transform_agrees_list :
    ∃ a' b' first second left right, addToList.transform removeText = .ok (a', b') ∧
      listOfText.Takes addToList first ∧ first.Takes b' left ∧ listOfText.Takes removeText second ∧
      second.Takes a' right ∧ (left.snapshot == right.snapshot) = true := by
  refine apply_transform_agrees reachable_listOfText rfl (by decide) (by decide) (by decide)
    (by decide) (by decide) ?_
  intro e _ f hf id _ hadds
  rw [List.mem_singleton.1 hf] at hadds
  exact absurd hadds.2.1 (by decide)

end CoEdit.Document
