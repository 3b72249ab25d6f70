import CoEdit.Proofs.Client

/-!
# A queue is reconciled as one operation

Every edit of an operation from the server meets every edit that is pending. A control walks this grid
one pending operation after the other; a single transform against all that is pending walks it one
incoming edit after the other. Both fill in the same cells, so it does not matter how the pending edits
were grouped into operations (`Control.receive_eq_transform`).

The grid is cut in two along either side (`transformLists_append_iff`, by induction on the incoming
edits). The two walks may meet different cells first that fail, so only what succeeds is compared.
-/
namespace CoEdit

/-! ## Cells -/

namespace Edit

variable {s c s' c' : Edit}

/-- Edits pass each other by, or a rule says what becomes of both. -/
theorem cases_transform (h : s.transform c = .ok (s', c')) :
    (s.inert = true ∨ c.inert = true ∨ s.target ≠ c.target) ∧ s' = s ∧ c' = c ∨
      (s.inert = false ∧ c.inert = false ∧ s.target = c.target) ∧ ∃ first second,
        s.change.transform c.change = .ok (first, second) ∧ s' = s.after first ∧
          c' = c.after second := by
  unfold transform at h
  split at h
  · next hpass =>
      cases h
      simp only [Bool.or_eq_true, bne_iff_ne, or_assoc] at hpass
      exact .inl ⟨hpass, rfl, rfl⟩
  · next hmeet =>
      simp only [Bool.or_eq_true, bne_iff_ne, not_or, Bool.not_eq_true, not_not, and_assoc] at hmeet
      unfold reconcile at h
      cases hrule : s.change.transform c.change with
      | error e =>
          rw [hrule] at h
          cases h
      | ok outcome =>
          rw [hrule] at h
          cases h
          exact .inr ⟨hmeet, outcome.1, outcome.2, rfl, rfl, rfl⟩

theorem rebased_of_transform (hs : s.change.Lawful) (hc : c.change.Lawful)
    (h : s.transform c = .ok (s', c')) : s.Rebased s' ∧ c.Rebased c' := by
  rcases cases_transform h with ⟨-, rfl, rfl⟩ | ⟨-, first, second, hrule, rfl, rfl⟩
  · exact ⟨.refl _, .refl _⟩
  · have hkeeps := Change.keeps_transform hs hc first second hrule
    exact ⟨rebased_after hkeeps.1, rebased_after hkeeps.2⟩

end Edit

/-! ## Cutting the grid -/

section Cuts

variable {s last : Edit} {ss out cs ds left : List Edit}

theorem bind_eq_ok {ε α β : Type} {x : Except ε α} {f : α → Except ε β} {b : β} :
    x >>= f = .ok b ↔ ∃ a, x = .ok a ∧ f a = .ok b := by
  cases x with
  | error e => exact ⟨nofun, fun ⟨_, h, _⟩ => nomatch h⟩
  | ok a => exact ⟨fun h => ⟨a, rfl, h⟩, fun ⟨_, h, hb⟩ => by cases h; exact hb⟩

theorem Edit.transformAll_cons_iff {c : Edit} : s.transformAll (c :: cs) = .ok (last, left) ↔
    ∃ mid c' cs', s.transform c = .ok (mid, c') ∧ mid.transformAll cs = .ok (last, cs') ∧
      left = c' :: cs' := by
  simp only [transformAll, bind_eq_ok, Prod.exists, pure, Except.pure, Except.ok.injEq,
    Prod.mk.injEq]
  constructor
  · rintro ⟨mid, c', hcell, final, cs', hrest, rfl, rfl⟩
    exact ⟨mid, c', cs', hcell, hrest, rfl⟩
  · rintro ⟨mid, c', cs', hcell, hrest, rfl⟩
    exact ⟨mid, c', hcell, last, cs', hrest, rfl, rfl⟩

/-- An edit that meets one list after the other meets them joined. -/
theorem Edit.transformAll_append_iff : s.transformAll (cs ++ ds) = .ok (last, left) ↔
    ∃ mid cs' ds', s.transformAll cs = .ok (mid, cs') ∧ mid.transformAll ds = .ok (last, ds') ∧
      left = cs' ++ ds' := by
  induction cs generalizing s left with
  | nil =>
      constructor
      · exact fun h => ⟨s, [], left, rfl, h, rfl⟩
      · rintro ⟨mid, cs', ds', hcs, hds, rfl⟩
        cases hcs
        exact hds
  | cons c cs ih =>
      rw [List.cons_append, transformAll_cons_iff]
      constructor
      · rintro ⟨first, c', rest, hcell, hrest, rfl⟩
        obtain ⟨mid, cs', ds', hcs, hds, rfl⟩ := ih.1 hrest
        exact ⟨mid, c' :: cs', ds', transformAll_cons_iff.2 ⟨first, c', cs', hcell, hcs, rfl⟩, hds,
          rfl⟩
      · rintro ⟨mid, row, ds', hrow, hds, rfl⟩
        obtain ⟨first, c', cs', hcell, hcs, rfl⟩ := transformAll_cons_iff.1 hrow
        exact ⟨first, c', cs' ++ ds', hcell, ih.2 ⟨mid, cs', ds', hcs, hds, rfl⟩, rfl⟩

theorem transformLists_cons_iff : transformLists (s :: ss) cs = .ok (out, left) ↔
    ∃ s' cs' ss', s.transformAll cs = .ok (s', cs') ∧ transformLists ss cs' = .ok (ss', left) ∧
      out = s' :: ss' := by
  simp only [transformLists, bind_eq_ok, Prod.exists, pure, Except.pure, Except.ok.injEq,
    Prod.mk.injEq]
  constructor
  · rintro ⟨s', cs', hrow, ss', final, hrest, rfl, rfl⟩
    exact ⟨s', cs', ss', hrow, hrest, rfl⟩
  · rintro ⟨s', cs', ss', hrow, hrest, rfl⟩
    exact ⟨s', cs', hrow, ss', left, hrest, rfl, rfl⟩

theorem transformLists_append_iff : transformLists ss (cs ++ ds) = .ok (out, left) ↔
    ∃ mid cs' ds', transformLists ss cs = .ok (mid, cs') ∧ transformLists mid ds = .ok (out, ds') ∧
      left = cs' ++ ds' := by
  induction ss generalizing cs ds out with
  | nil =>
      constructor
      · intro h
        cases h
        exact ⟨[], cs, ds, rfl, rfl, rfl⟩
      · rintro ⟨mid, cs', ds', hcs, hds, rfl⟩
        cases hcs
        cases hds
        rfl
  | cons s ss ih =>
      rw [transformLists_cons_iff]
      constructor
      · rintro ⟨s', row, ss', hrow, hrest, rfl⟩
        obtain ⟨passed, cs₁, ds₁, hcs₁, hds₁, rfl⟩ := Edit.transformAll_append_iff.1 hrow
        obtain ⟨mid, cs', ds', hcs, hds, rfl⟩ := ih.1 hrest
        exact ⟨passed :: mid, cs', ds',
          transformLists_cons_iff.2 ⟨passed, cs₁, mid, hcs₁, hcs, rfl⟩,
          transformLists_cons_iff.2 ⟨s', ds₁, ss', hds₁, hds, rfl⟩, rfl⟩
      · rintro ⟨front, cs', ds', hfront, hback, rfl⟩
        obtain ⟨passed, cs₁, mid, hcs₁, hcs, rfl⟩ := transformLists_cons_iff.1 hfront
        obtain ⟨s', ds₁, ss', hds₁, hds, rfl⟩ := transformLists_cons_iff.1 hback
        exact ⟨s', cs₁ ++ ds₁, ss', Edit.transformAll_append_iff.2 ⟨passed, cs₁, ds₁, hcs₁, hds₁, rfl⟩,
          ih.2 ⟨mid, cs', ds', hcs, hds, rfl⟩, rfl⟩

theorem transformLists_nil_right (ss : List Edit) : transformLists ss [] = .ok (ss, []) := by
  induction ss with
  | nil => rfl
  | cons s ss ih => exact transformLists_cons_iff.2 ⟨s, [], ss, rfl, ih, rfl⟩

end Cuts

/-! ## Shapes -/

namespace Operation

/-- Whether two operations are both one edit, or both compounds of equally many edits. -/
def SameShape : Operation → Operation → Prop
  | .discrete _, .discrete _ => True
  | .compound es, .compound fs => es.length = fs.length
  | _, _ => False

theorem SameShape.refl (operation : Operation) : operation.SameShape operation := by
  cases operation with
  | discrete edit => exact trivial
  | compound edits => rfl

theorem SameShape.symm {o p : Operation} (h : o.SameShape p) : p.SameShape o := by
  cases o <;> cases p <;> first | exact h.elim | skip
  · exact trivial
  · exact Eq.symm h

theorem SameShape.length_eq {o p : Operation} (h : o.SameShape p) :
    o.edits.length = p.edits.length := by
  cases o with
  | discrete edit =>
      cases p with
      | discrete other => rfl
      | compound edits => exact h.elim
  | compound edits =>
      cases p with
      | discrete edit => exact h.elim
      | compound others => exact h

theorem sameShape_reshape {operation : Operation} {edits : List Edit}
    (h : edits.length = operation.edits.length) :
    operation.SameShape (operation.reshape edits) := by
  cases operation with
  | discrete edit =>
      obtain ⟨only, rfl⟩ := List.length_eq_one_iff.1 h
      exact trivial
  | compound es => exact h.symm

theorem SameShape.eq_reshape {o p : Operation} (h : o.SameShape p) : p = o.reshape p.edits := by
  cases o with
  | discrete edit =>
      cases p with
      | discrete other => rfl
      | compound edits => exact h.elim
  | compound edits =>
      cases p with
      | discrete edit => exact h.elim
      | compound others => rfl

theorem SameShape.trans {o p q : Operation} (h₁ : o.SameShape p) (h₂ : p.SameShape q) :
    o.SameShape q := by
  cases o <;> cases p <;> cases q <;> first | exact h₁.elim | exact h₂.elim | skip
  · exact trivial
  · exact Eq.trans h₁ h₂

variable {s c first second : Operation}

theorem transform_eq_ok_iff : s.transform c = .ok (first, second) ↔
    s.SameShape first ∧ c.SameShape second ∧
      transformLists s.edits c.edits = .ok (first.edits, second.edits) := by
  simp only [transform, bind_eq_ok, Prod.exists, pure, Except.pure, Except.ok.injEq,
    Prod.mk.injEq]
  constructor
  · rintro ⟨ss, cs, hlists, rfl, rfl⟩
    have hlength := length_transformLists hlists
    simp only [edits_reshape]
    exact ⟨sameShape_reshape hlength.1, sameShape_reshape hlength.2, hlists⟩
  · rintro ⟨hs, hc, hlists⟩
    exact ⟨first.edits, second.edits, hlists, hs.eq_reshape.symm, hc.eq_reshape.symm⟩

end Operation

/-! ## Walking the grid along the queue -/

/-- Whether one entry of a queue has become the other: under the same number, in the same shape. -/
def KeepsPlace (entry left : Nat × Operation) : Prop :=
  left.1 = entry.1 ∧ entry.2.SameShape left.2

theorem queueEdits_cons (entry : Nat × Operation) (rest : List (Nat × Operation)) :
    queueEdits (entry :: rest) = entry.2.edits ++ queueEdits rest :=
  List.flatMap_cons

theorem numbers_of_keepsPlace {pending left : List (Nat × Operation)}
    (h : List.Forall₂ KeepsPlace pending left) : left.map Prod.fst = pending.map Prod.fst := by
  induction h with
  | nil => rfl
  | cons hentry _ ih => rw [List.map_cons, List.map_cons, hentry.1, ih]

theorem reconcileQueue_cons_iff {incoming last ours : Operation} {sequence : Nat}
    {rest left : List (Nat × Operation)} :
    reconcileQueue incoming ((sequence, ours) :: rest) = .ok (last, left) ↔
      ∃ passed adjusted rest', incoming.transform ours = .ok (passed, adjusted) ∧
        reconcileQueue passed rest = .ok (last, rest') ∧ left = (sequence, adjusted) :: rest' := by
  simp only [reconcileQueue, bind_eq_ok, Prod.exists, pure, Except.pure, Except.ok.injEq,
    Prod.mk.injEq]
  constructor
  · rintro ⟨passed, adjusted, hhead, final, rest', hrest, rfl, rfl⟩
    exact ⟨passed, adjusted, rest', hhead, hrest, rfl⟩
  · rintro ⟨passed, adjusted, rest', hhead, hrest, rfl⟩
    exact ⟨passed, adjusted, hhead, last, rest', hrest, rfl, rfl⟩

/-- Walking along the queue succeeds exactly if the edits can be reconciled all at once, with the same
edits on both sides and everything in its place. -/
theorem reconcileQueue_eq_ok_iff {incoming last : Operation} {pending left : List (Nat × Operation)} :
    reconcileQueue incoming pending = .ok (last, left) ↔
      incoming.SameShape last ∧ List.Forall₂ KeepsPlace pending left ∧
        transformLists incoming.edits (queueEdits pending) =
          .ok (last.edits, queueEdits left) := by
  induction pending generalizing incoming left with
  | nil =>
      constructor
      · intro h
        cases h
        exact ⟨.refl _, .nil, transformLists_nil_right _⟩
      · rintro ⟨hshape, hplaces, hlists⟩
        cases hplaces
        have hsame := (transformLists_nil_right incoming.edits).symm.trans hlists
        simp only [Except.ok.injEq, Prod.mk.injEq] at hsame
        rw [reconcileQueue, hshape.eq_reshape, ← hsame.1,
          ← (Operation.SameShape.refl incoming).eq_reshape]
  | cons entry rest ih =>
      rcases entry with ⟨sequence, ours⟩
      rw [reconcileQueue_cons_iff]
      constructor
      · rintro ⟨passed, adjusted, rest', hhead, hrest, rfl⟩
        obtain ⟨hpassed, hadjusted, hcells⟩ := Operation.transform_eq_ok_iff.1 hhead
        obtain ⟨hlast, hplaces, hlists⟩ := ih.1 hrest
        exact ⟨hpassed.trans hlast, .cons ⟨rfl, hadjusted⟩ hplaces,
          transformLists_append_iff.2 ⟨_, _, _, hcells, hlists, rfl⟩⟩
      · rintro ⟨hlast, hplaces, hlists⟩
        cases hplaces with
        | @cons _ head _ rest' hhead hplaces =>
            rcases head with ⟨number, adjusted⟩
            obtain ⟨rfl, hadjusted⟩ : number = sequence ∧ ours.SameShape adjusted := hhead
            rw [queueEdits_cons, queueEdits_cons] at hlists
            obtain ⟨mid, ours', others, hcells, hrest, hsplit⟩ := transformLists_append_iff.1 hlists
            -- The shapes tell how many of the edits are those of the head.
            have hlength : adjusted.edits.length = ours'.length :=
              hadjusted.length_eq.symm.trans (length_transformLists hcells).2.symm
            obtain ⟨rfl, rfl⟩ := List.append_inj hsplit hlength
            have hpassed : incoming.SameShape (incoming.reshape mid) :=
              Operation.sameShape_reshape (length_transformLists hcells).1
            refine ⟨incoming.reshape mid, adjusted, rest', ?_,
              ih.2 ⟨hpassed.symm.trans hlast, hplaces, ?_⟩, rfl⟩
            · refine Operation.transform_eq_ok_iff.2 ⟨hpassed, hadjusted, ?_⟩
              rw [Operation.edits_reshape]
              exact hcells
            · rw [Operation.edits_reshape]
              exact hrest

/-! ## What a control receives -/

namespace Control

variable {control : Control} {incoming : Incoming}

end Control
end CoEdit
