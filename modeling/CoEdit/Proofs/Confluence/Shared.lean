import CoEdit.Proofs.Grid

/-!
# Elements that both sides edit

Whether two lists of edits can be reconciled is decided by the elements at which both are aimed. It is
enough that the edits of those elements can be reconciled (`exists_transformLists_of_within`): all other
edits may be taken to be inert, and need not even fit the shadow.
-/
namespace CoEdit

/-- The edit if it is aimed at one of `ids`, else the edit with nothing left to do. -/
def Edit.within (ids : List ElementId) (edit : Edit) : Edit :=
  if edit.target ∈ ids then edit else edit.asInert

/-- Whether edits of one element, one from either list, are edits of one of `ids`. -/
def MeetWithin (ids : List ElementId) (ss cs : List Edit) : Prop :=
  ∀ s ∈ ss, ∀ c ∈ cs, s.inert = false → c.inert = false → s.target = c.target → s.target ∈ ids

theorem MeetWithin.rebased {ids : List ElementId} {ss cs ss' cs' : List Edit}
    (h : MeetWithin ids ss cs) (hs : RebasedAll ss ss')
    (hc : RebasedAll cs cs') : MeetWithin ids ss' cs' := by
  intro s' hs' c' hc' hactive hactive' htarget
  obtain ⟨s, hsmem, hrs⟩ := hs.exists_of_mem hs'
  obtain ⟨c, hcmem, hrc⟩ := hc.exists_of_mem hc'
  rw [hrs.target, hrc.target] at htarget
  rw [hrs.target]
  exact h s hsmem c hcmem (hrs.active hactive) (hrc.active hactive') htarget

namespace Edit

variable {ids : List ElementId} {s c x y : Edit} {cs ys : List Edit}

theorem within_of_mem (h : s.target ∈ ids) : s.within ids = s := if_pos h

theorem within_of_not_mem (h : s.target ∉ ids) : s.within ids = s.asInert := if_neg h

theorem rebased_within (ids : List ElementId) (s : Edit) : s.Rebased (s.within ids) := by
  by_cases h : s.target ∈ ids
  · rw [within_of_mem h]
    exact .refl s
  · rw [within_of_not_mem h]
    exact ⟨rfl, nofun, .refl _⟩

theorem transform_of_pass (h : s.inert = true ∨ c.inert = true ∨ s.target ≠ c.target) :
    s.transform c = .ok (s, c) := by
  rcases h with h | h | h
  · exact transform_of_inert (.inl h)
  · exact transform_of_inert (.inr h)
  · exact transform_of_target_ne h

theorem exists_transform_of_within
    (hmeet : s.inert = false → c.inert = false → s.target = c.target → s.target ∈ ids)
    (h : (s.within ids).transform (c.within ids) = .ok (x, y)) :
    ∃ s' c', s.transform c = .ok (s', c') ∧ s'.within ids = x ∧ c'.within ids = y := by
  by_cases hpass : s.inert = true ∨ c.inert = true ∨ s.target ≠ c.target
  · have hinert (e : Edit) (he : e.inert = true) : (e.within ids).inert = true := by
      by_contra hactive
      rw [Bool.not_eq_true] at hactive
      rw [(rebased_within ids e).active hactive] at he
      cases he
    have hpass' : (s.within ids).inert = true ∨ (c.within ids).inert = true ∨
        (s.within ids).target ≠ (c.within ids).target := by
      rw [(rebased_within ids s).target, (rebased_within ids c).target]
      exact hpass.imp (hinert s) (Or.imp_left (hinert c))
    rw [transform_of_pass hpass'] at h
    cases h
    exact ⟨s, c, transform_of_pass hpass, rfl, rfl⟩
  · simp only [not_or, Bool.not_eq_true, not_not] at hpass
    have hmem := hmeet hpass.1 hpass.2.1 hpass.2.2
    rw [within_of_mem hmem, within_of_mem (hpass.2.2 ▸ hmem)] at h
    have htargets : x.target = s.target ∧ y.target = c.target := by
      rcases cases_transform h with ⟨-, rfl, rfl⟩ | ⟨-, first, second, -, rfl, rfl⟩
      · exact ⟨rfl, rfl⟩
      · exact ⟨by cases first <;> rfl, by cases second <;> rfl⟩
    exact ⟨x, y, h, within_of_mem (htargets.1 ▸ hmem),
      within_of_mem (htargets.2 ▸ hpass.2.2 ▸ hmem)⟩

theorem exists_transformAll_of_within (hs : s.change.Lawful) (hcs : ∀ c ∈ cs, c.change.Lawful)
    (hmeet : MeetWithin ids [s] cs)
    (h : (s.within ids).transformAll (cs.map (within ids)) = .ok (x, ys)) :
    ∃ s' cs', s.transformAll cs = .ok (s', cs') ∧ s'.within ids = x ∧ cs'.map (within ids) = ys ∧
      s.Rebased s' ∧ RebasedAll cs cs' := by
  induction cs generalizing s ys with
  | nil =>
      cases h
      exact ⟨s, [], rfl, rfl, rfl, .refl s, .nil⟩
  | cons c rest ih =>
      rw [List.forall_mem_cons] at hcs
      obtain ⟨mid, y, ys', hcell, hrest, rfl⟩ := transformAll_cons_iff.1 h
      obtain ⟨s₁, c', hcell', rfl, rfl⟩ := exists_transform_of_within
        (hmeet s List.mem_cons_self c List.mem_cons_self) hcell
      obtain ⟨hrebased, hrebased'⟩ := rebased_of_transform hs hcs.1 hcell'
      have hmeetRest : MeetWithin ids [s] rest := fun e he d hd =>
        hmeet e he d (List.mem_cons_of_mem _ hd)
      obtain ⟨s', cs', hall, rfl, rfl, hrebasedS, hrebasedRest⟩ := ih (hrebased.change.lawful hs) hcs.2
        (hmeetRest.rebased (.cons hrebased .nil) (.refl rest)) hrest
      exact ⟨s', c' :: cs', transformAll_cons_iff.2 ⟨s₁, c', cs', hcell', hall, rfl⟩, rfl, rfl,
        hrebased.trans hrebasedS, .cons hrebased' hrebasedRest⟩

end Edit

variable {ids : List ElementId} {ss cs xs ys : List Edit} {shadow after₁ after₂ : Shadow}

theorem transformLists_of_within (hss : ∀ s ∈ ss, s.change.Lawful) (hcs : ∀ c ∈ cs, c.change.Lawful)
    (hmeet : MeetWithin ids ss cs)
    (h : transformLists (ss.map (Edit.within ids)) (cs.map (Edit.within ids)) = .ok (xs, ys)) :
    ∃ ss' cs', transformLists ss cs = .ok (ss', cs') := by
  induction ss generalizing cs xs ys with
  | nil => exact ⟨[], cs, rfl⟩
  | cons s rest ih =>
      rw [List.forall_mem_cons] at hss
      obtain ⟨x, ys', xs', hrow, hrest, rfl⟩ := transformLists_cons_iff.1 h
      have hmeetRow : MeetWithin ids [s] cs := fun e he =>
        hmeet e (List.mem_singleton.1 he ▸ List.mem_cons_self)
      obtain ⟨s', cs₁, hrow', -, rfl, -, hrebased⟩ :=
        Edit.exists_transformAll_of_within hss.1 hcs hmeetRow hrow
      have hcs₁ : ∀ c ∈ cs₁, c.change.Lawful := by
        intro c hc
        obtain ⟨original, hmem, hleft⟩ := hrebased.exists_of_mem hc
        exact hleft.change.lawful (hcs original hmem)
      have hmeetRest : MeetWithin ids rest cs :=  fun e he => hmeet e (List.mem_cons_of_mem _ he)
      obtain ⟨rest', cs', hlists⟩ := ih hss.2 hcs₁ (hmeetRest.rebased (.refl rest) hrebased) hrest
      exact ⟨s' :: rest', cs', transformLists_cons_iff.2 ⟨s', cs₁, rest', hrow', hlists, rfl⟩⟩

/-- Two lists of edits can be reconciled if the edits of the elements at which both are aimed were made to
one shadow. -/
theorem exists_transformLists_of_within (hcompatible : Compatible ss cs)
    (hss : ∀ s ∈ ss, s.change.Lawful) (hcs : ∀ c ∈ cs, c.change.Lawful)
    (hmeet : MeetWithin ids ss cs) (h₁ : shadow.run? (ss.map (Edit.within ids)) = some after₁)
    (h₂ : shadow.run? (cs.map (Edit.within ids)) = some after₂) :
    ∃ ss' cs', transformLists ss cs = .ok (ss', cs') := by
  have hwithin (edits : List Edit) : RebasedAll edits (edits.map (Edit.within ids)) :=
    List.forall₂_map_right_iff.2 (List.forall₂_same.2 fun e _ => Edit.rebased_within ids e)
  obtain ⟨xs, ys, -, hlists, -⟩ :=
    exists_transformLists (hcompatible.rebased (hwithin ss) (hwithin cs)) h₁ h₂
  exact transformLists_of_within hss hcs hmeet hlists

end CoEdit
