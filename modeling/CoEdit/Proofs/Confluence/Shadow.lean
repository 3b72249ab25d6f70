import CoEdit.Control
import CoEdit.Proofs.Confluence.View

/-!
# Concurrent operations commute on what elements show

A shadow says of every element what it shows, also of elements that have left the document. Where an
edit is aimed at such an element the document passes over it, but its shadow goes on changing, so edits
by different participants meet in every order. From one pair of edits (`Edit.exists_transform`) the
rules are carried over to lists of edits, to operations and to a whole queue of pending operations
(`exists_reconcileQueue`): each step completes one cell of a grid, and what is left of the edits stays
legal, so that the next cell can be completed too.
-/
namespace CoEdit

/-- What every element shows. -/
abbrev Shadow := ElementId → View

namespace Shadow

/-- The shadow after one edit, if it fits. -/
def edit? (shadow : Shadow) (edit : Edit) : Option Shadow :=
  if edit.inert then some shadow
  else ((shadow edit.target).edit? edit.change).map (Function.update shadow edit.target)

/-- The shadow after edits in order, if all fit. -/
def run? (shadow : Shadow) (edits : List Edit) : Option Shadow :=
  edits.foldlM edit? shadow

variable {shadow next last : Shadow} {edit : Edit}

theorem run?_append (front back : List Edit) :
    shadow.run? (front ++ back) = (shadow.run? front).bind (run? · back) :=
  List.foldlM_append ..

theorem run?_cons_eq_some {edits : List Edit} : shadow.run? (edit :: edits) = some last ↔
    ∃ next, shadow.edit? edit = some next ∧ next.run? edits = some last :=
  Option.bind_eq_some_iff

theorem run?_append_eq_some {front back : List Edit} : shadow.run? (front ++ back) = some last ↔
    ∃ next, shadow.run? front = some next ∧ next.run? back = some last := by
  rw [run?_append]
  exact Option.bind_eq_some_iff

theorem edit?_of_inert (h : edit.inert = true) : shadow.edit? edit = some shadow := if_pos h

theorem edit?_of_active (h : edit.inert = false) : shadow.edit? edit =
    ((shadow edit.target).edit? edit.change).map (Function.update shadow edit.target) :=
  if_neg (by simp [h])

theorem edit?_eq_some (h : edit.inert = false) (hnext : shadow.edit? edit = some next) :
    ∃ view, (shadow edit.target).edit? edit.change = some view ∧
      next = Function.update shadow edit.target view := by
  rw [edit?_of_active h] at hnext
  obtain ⟨view, hview, rfl⟩ := Option.map_eq_some_iff.1 hnext
  exact ⟨view, hview, rfl⟩

theorem edit?_frame {id : ElementId} (hid : edit.inert = false → edit.target ≠ id)
    (h : shadow.edit? edit = some next) : next id = shadow id := by
  cases hinert : edit.inert with
  | true =>
      rw [edit?_of_inert hinert] at h
      cases h
      rfl
  | false =>
      obtain ⟨view, -, rfl⟩ := edit?_eq_some hinert h
      exact Function.update_of_ne (hid hinert).symm _ _

theorem run?_frame {edits : List Edit} {id : ElementId}
    (hid : ∀ edit ∈ edits, edit.inert = false → edit.target ≠ id)
    (h : shadow.run? edits = some last) : last id = shadow id := by
  induction edits generalizing shadow with
  | nil =>
      cases h
      rfl
  | cons edit rest ih =>
      obtain ⟨next, hnext, hlast⟩ := run?_cons_eq_some.1 h
      rw [ih (fun e he => hid e (List.mem_cons_of_mem _ he)) hlast]
      exact edit?_frame (hid edit List.mem_cons_self) hnext

/-- No element shows a number that is none. -/
def Numeric (shadow : Shadow) : Prop :=
  ∀ id, shadow id ≠ .number .notANumber

theorem edit?_view_numeric {change : Change} {before view : View} (hlegal : change.Legal)
    (hbefore : before ≠ .number .notANumber) (h : before.edit? change = some view) :
    view ≠ .number .notANumber := by
  cases before with
  | number m =>
      cases change with
      | number c =>
          have hfinite := hlegal.finite
          simp only [Change.firstNonFinite?, ite_eq_left_iff, reduceCtorEq, imp_false,
            not_not] at hfinite
          cases c with
          | delta amount =>
              cases h
              intro heq
              exact Number.raise_ne_notANumber hfinite (fun hm => hbefore (congrArg View.number hm))
                (View.number.inj heq)
          | set value =>
              cases h
              intro heq
              exact Number.magnitude_ne_notANumber_of_isFinite hfinite (View.number.inj heq)
      | _ => cases h
  | string text =>
      cases change with
      | string c =>
          obtain ⟨next, -, rfl⟩ := Option.map_eq_some_iff.1 h
          simp
      | _ => cases h
  | array items =>
      cases change with
      | array c =>
          obtain ⟨next, -, rfl⟩ := Option.map_eq_some_iff.1 h
          simp
      | _ => cases h
  | object props =>
      cases change with
      | object c =>
          obtain ⟨next, -, rfl⟩ := Option.map_eq_some_iff.1 h
          simp
      | _ => cases h
  | boolean value =>
      cases change <;> cases h
      simp
  | date millis =>
      cases change <;> cases h
      simp
  | null => cases change <;> cases h

/-- Legal edits make numbers of numbers. -/
theorem Numeric.run? {edits : List Edit} (hnumeric : shadow.Numeric)
    (hlegal : ∀ edit ∈ edits, edit.change.Legal) (h : shadow.run? edits = some last) :
    last.Numeric := by
  induction edits generalizing shadow with
  | nil =>
      cases h
      exact hnumeric
  | cons edit rest ih =>
      obtain ⟨next, hnext, hlast⟩ := run?_cons_eq_some.1 h
      refine ih ?_ (fun e he => hlegal e (List.mem_cons_of_mem _ he)) hlast
      cases hinert : edit.inert with
      | true =>
          rw [edit?_of_inert hinert] at hnext
          cases hnext
          exact hnumeric
      | false =>
          obtain ⟨view, hview, rfl⟩ := edit?_eq_some hinert hnext
          have hview := edit?_view_numeric (hlegal edit List.mem_cons_self) (hnumeric _) hview
          intro id
          by_cases hid : id = edit.target
          · rw [hid, Function.update_self]
            exact hview
          · rw [Function.update_of_ne hid]
            exact hnumeric id

/-- What becomes of an edit by a rule does to the shadow what the outcome does to the view. -/
theorem edit?_after {outcome : Outcome Change} {before view : View} (h : edit.inert = false)
    (houtcome : outcome.follow View.edit? before = some view) :
    edit? (Function.update shadow edit.target before) (edit.after outcome) =
      some (Function.update shadow edit.target view) := by
  cases outcome with
  | becomes change =>
      have hview : before.edit? change = some view := houtcome
      rw [Edit.after, edit?_of_active (show (edit.withChange change).inert = false from h)]
      simp [Edit.withChange, hview]
  | dropped =>
      cases houtcome
      exact edit?_of_inert rfl

end Shadow

namespace Edit

/-- Whether the edit is in force and adds to the number `id`. -/
def AddsTo (id : ElementId) (edit : Edit) : Prop :=
  edit.inert = false ∧ edit.change.isDelta = true ∧ edit.target = id

/-- `left` is what reconciling with other edits may leave of `edit`. -/
structure Rebased (edit left : Edit) : Prop where
  target : left.target = edit.target
  active : left.inert = false → edit.inert = false
  change : edit.change.Rebased left.change

theorem Rebased.refl (edit : Edit) : edit.Rebased edit := ⟨rfl, id, .refl _⟩

theorem Rebased.trans {a b c : Edit} (h₁ : a.Rebased b) (h₂ : b.Rebased c) : a.Rebased c :=
  ⟨h₂.target.trans h₁.target, fun h => h₁.active (h₂.active h), h₁.change.trans h₂.change⟩

theorem Rebased.addsTo {edit left : Edit} {id : ElementId} (h : edit.Rebased left)
    (hadds : left.AddsTo id) : edit.AddsTo id :=
  ⟨h.active hadds.1, h.change.isDelta ▸ hadds.2.1, h.target ▸ hadds.2.2⟩

theorem rebased_after {edit : Edit} {outcome : Outcome Change}
    (h : outcome.All edit.change.Rebased) : edit.Rebased (edit.after outcome) := by
  cases outcome with
  | becomes change => exact ⟨rfl, id, h⟩
  | dropped => exact ⟨rfl, fun hinert => (by cases hinert), .refl _⟩

variable {shadow next : Shadow}

/-- Both edits are lawful, and there is no number to which both add. -/
structure Compatible (s c : Edit) : Prop where
  first : s.change.Lawful
  second : c.change.Lawful
  apart : ∀ id, s.AddsTo id → ¬c.AddsTo id

theorem Compatible.rebased {s c s' c' : Edit} (h : s.Compatible c) (hs : s.Rebased s')
    (hc : c.Rebased c') : s'.Compatible c' :=
  ⟨hs.change.lawful h.first, hc.change.lawful h.second,
    fun id hs' hc' => h.apart id (hs.addsTo hs') (hc.addsTo hc')⟩

/-- Both edits are legal, and there is no number to which both add. -/
structure Reconcilable (s c : Edit) : Prop where
  first : s.change.Legal
  second : c.change.Legal
  apart : ∀ id, s.AddsTo id → ¬c.AddsTo id

theorem Reconcilable.compatible {s c : Edit} (h : s.Reconcilable c) : s.Compatible c :=
  ⟨h.first.lawful, h.second.lawful, h.apart⟩

theorem Reconcilable.rebased {s c s' c' : Edit} (h : s.Reconcilable c) (hs : s.Rebased s')
    (hc : c.Rebased c') : s'.Reconcilable c' :=
  ⟨hs.change.legal h.first, hc.change.legal h.second,
    fun id hs' hc' => h.apart id (hs.addsTo hs') (hc.addsTo hc')⟩

/-- Two edits that were both made to one shadow can be reconciled, and then each follows the other to
the same result. -/
theorem exists_transform {s c : Edit} {after₁ after₂ : Shadow} (h : s.Compatible c)
    (h₁ : shadow.edit? s = some after₁) (h₂ : shadow.edit? c = some after₂) :
    ∃ s' c' joined, s.transform c = .ok (s', c') ∧ after₁.edit? c' = some joined ∧
      after₂.edit? s' = some joined ∧ s.Rebased s' ∧ c.Rebased c' := by
  cases hs : s.inert with
  | true =>
      rw [Shadow.edit?_of_inert hs] at h₁
      cases h₁
      exact ⟨s, c, after₂, transform_of_inert (.inl hs), h₂, Shadow.edit?_of_inert hs, .refl _,
        .refl _⟩
  | false =>
      cases hc : c.inert with
      | true =>
          rw [Shadow.edit?_of_inert hc] at h₂
          cases h₂
          exact ⟨s, c, after₁, transform_of_inert (.inr hc), Shadow.edit?_of_inert hc, h₁,
            .refl _, .refl _⟩
      | false =>
          obtain ⟨view₁, hview₁, rfl⟩ := Shadow.edit?_eq_some hs h₁
          obtain ⟨view₂, hview₂, rfl⟩ := Shadow.edit?_eq_some hc h₂
          by_cases htarget : s.target = c.target
          · rw [← htarget] at hview₂ ⊢
            have hdelta : ¬(s.change.isDelta = true ∧ c.change.isDelta = true) := fun hboth =>
              h.apart s.target ⟨hs, hboth.1, rfl⟩ ⟨hc, hboth.2, htarget.symm⟩
            obtain ⟨first, second, view, hanswer, hsecond, hfirst⟩ :=
              Change.joins_transform h.first h.second hdelta hview₁ hview₂
            have hkeeps := Change.keeps_transform h.first h.second first second hanswer
            refine ⟨s.after first, c.after second, Function.update shadow s.target view, ?_, ?_,
              Shadow.edit?_after hs hfirst, rebased_after hkeeps.1, rebased_after hkeeps.2⟩
            · simp [transform, reconcile, hs, hc, htarget, hanswer, Except.map]
            · rw [htarget]
              exact Shadow.edit?_after hc hsecond
          · refine ⟨s, c, Function.update (Function.update shadow s.target view₁) c.target view₂,
              transform_of_target_ne htarget, ?_, ?_, .refl _, .refl _⟩
            · rw [Shadow.edit?_of_active hc, Function.update_of_ne (Ne.symm htarget), hview₂]
              rfl
            · rw [Shadow.edit?_of_active hs, Function.update_of_ne htarget, hview₁,
                Option.map_some, Function.update_comm htarget]

end Edit

def Compatible (ss cs : List Edit) : Prop :=
  ∀ s ∈ ss, ∀ c ∈ cs, s.Compatible c

/-- Every edit of the one list can be reconciled with every edit of the other. -/
def Reconcilable (ss cs : List Edit) : Prop :=
  ∀ s ∈ ss, ∀ c ∈ cs, s.Reconcilable c

abbrev RebasedAll := List.Forall₂ Edit.Rebased

namespace RebasedAll

theorem refl (edits : List Edit) : RebasedAll edits edits :=
  List.forall₂_same.2 fun edit _ => .refl edit

theorem trans {as bs cs : List Edit} (h₁ : RebasedAll as bs) (h₂ : RebasedAll bs cs) :
    RebasedAll as cs :=
  Element.forall₂_trans (r := Edit.Rebased) (fun _ _ _ => .trans) h₁ h₂

theorem exists_of_mem {edits left : List Edit} (h : RebasedAll edits left) {e : Edit}
    (he : e ∈ left) : ∃ original ∈ edits, original.Rebased e :=
  Element.exists_of_mem_right h he

end RebasedAll

theorem Compatible.rebased {ss cs ss' cs' : List Edit} (h : Compatible ss cs)
    (hs : RebasedAll ss ss') (hc : RebasedAll cs cs') : Compatible ss' cs' := by
  intro s' hs' c' hc'
  obtain ⟨s, hsmem, hrs⟩ := hs.exists_of_mem hs'
  obtain ⟨c, hcmem, hrc⟩ := hc.exists_of_mem hc'
  exact (h s hsmem c hcmem).rebased hrs hrc

theorem Reconcilable.rebased {ss cs ss' cs' : List Edit} (h : Reconcilable ss cs)
    (hs : RebasedAll ss ss') (hc : RebasedAll cs cs') : Reconcilable ss' cs' := by
  intro s' hs' c' hc'
  obtain ⟨s, hsmem, hrs⟩ := hs.exists_of_mem hs'
  obtain ⟨c, hcmem, hrc⟩ := hc.exists_of_mem hc'
  exact (h s hsmem c hcmem).rebased hrs hrc

variable {shadow after₁ after₂ : Shadow}

theorem Edit.exists_transformAll {s : Edit} {cs : List Edit}
    (h : ∀ c ∈ cs, s.Compatible c) (h₁ : shadow.edit? s = some after₁)
    (h₂ : shadow.run? cs = some after₂) :
    ∃ s' cs' joined, s.transformAll cs = .ok (s', cs') ∧ after₁.run? cs' = some joined ∧
      after₂.edit? s' = some joined ∧ s.Rebased s' ∧ RebasedAll cs cs' := by
  induction cs generalizing shadow s after₁ with
  | nil =>
      cases h₂
      exact ⟨s, [], after₁, rfl, rfl, h₁, .refl _, .nil⟩
  | cons c rest ih =>
      obtain ⟨mid, hmid, hlast⟩ := Shadow.run?_cons_eq_some.1 h₂
      have hc := h c List.mem_cons_self
      obtain ⟨s', c', corner, htransform, hc', hs', hrs, hrc⟩ :=
        exists_transform hc h₁ hmid
      have hrest : ∀ d ∈ rest, s'.Compatible d := fun d hd =>
        (h d (List.mem_cons_of_mem _ hd)).rebased hrs (.refl d)
      obtain ⟨s'', rest', joined, hall, hrun, hedit, hrs', hrrest⟩ := ih hrest hs' hlast
      refine ⟨s'', c' :: rest', joined, ?_, Shadow.run?_cons_eq_some.2 ⟨corner, hc', hrun⟩, hedit,
        hrs.trans hrs', .cons hrc hrrest⟩
      simp [transformAll, htransform, hall, bind, Except.bind, pure, Except.pure]

/-- Two lists of edits that were made to one shadow. -/
theorem exists_transformLists {ss cs : List Edit} (h : Compatible ss cs)
    (h₁ : shadow.run? ss = some after₁) (h₂ : shadow.run? cs = some after₂) :
    ∃ ss' cs' joined, transformLists ss cs = .ok (ss', cs') ∧ after₁.run? cs' = some joined ∧
      after₂.run? ss' = some joined ∧ RebasedAll ss ss' ∧ RebasedAll cs cs' := by
  induction ss generalizing shadow cs after₂ with
  | nil =>
      cases h₁
      exact ⟨[], cs, after₂, rfl, h₂, rfl, .nil, .refl _⟩
  | cons s rest ih =>
      obtain ⟨mid, hmid, hlast⟩ := Shadow.run?_cons_eq_some.1 h₁
      obtain ⟨s', cs', corner, hall, hcs', hs', hrs, hrcs⟩ :=
        Edit.exists_transformAll (h s List.mem_cons_self) hmid h₂
      have hrest : Compatible rest cs' := Compatible.rebased
        (fun t ht c hc => h t (List.mem_cons_of_mem _ ht) c hc) (.refl rest) hrcs
      obtain ⟨rest', cs'', joined, hlists, hrun₁, hrun₂, hrrest, hrcs'⟩ := ih hrest hlast hcs'
      refine ⟨s' :: rest', cs'', joined, ?_, hrun₁, Shadow.run?_cons_eq_some.2 ⟨corner, hs', hrun₂⟩,
        .cons hrs hrrest, hrcs.trans hrcs'⟩
      simp [transformLists, hall, hlists, bind, Except.bind, pure, Except.pure]

/-- Two operations that were made to one shadow. -/
theorem Operation.exists_transform {s c : Operation} (h : Reconcilable s.edits c.edits)
    (h₁ : shadow.run? s.edits = some after₁) (h₂ : shadow.run? c.edits = some after₂) :
    ∃ s' c' joined, s.transform c = .ok (s', c') ∧ after₁.run? c'.edits = some joined ∧
      after₂.run? s'.edits = some joined ∧ RebasedAll s.edits s'.edits ∧
      RebasedAll c.edits c'.edits := by
  have hcompatible : Compatible s.edits c.edits := fun e he f hf => (h e he f hf).compatible
  obtain ⟨ss', cs', joined, hlists, hrun₁, hrun₂, hrs, hrc⟩ :=
    exists_transformLists hcompatible h₁ h₂
  refine ⟨s.reshape ss', c.reshape cs', joined, ?_, ?_⟩
  · simp [Operation.transform, hlists, bind, Except.bind, pure, Except.pure]
  · simp only [Operation.edits_reshape]
    exact ⟨hrun₁, hrun₂, hrs, hrc⟩

def queueEdits (pending : List (Nat × Operation)) : List Edit :=
  pending.flatMap fun entry => entry.2.edits

/-- What is left of a queue: the same numbers, with what is left of each operation. -/
abbrev RebasedQueue :=
  List.Forall₂ fun entry left : Nat × Operation =>
    left.1 = entry.1 ∧ RebasedAll entry.2.edits left.2.edits

theorem RebasedQueue.edits {pending left : List (Nat × Operation)} (h : RebasedQueue pending left) :
    RebasedAll (queueEdits pending) (queueEdits left) := by
  induction h with
  | nil => exact .nil
  | cons hentry _ ih => exact List.rel_append hentry.2 ih

/-- An operation meets a queue. What is left of it leads on from behind the queue, and what is left of
the queue from behind the operation. -/
theorem exists_reconcileQueue {incoming : Operation} {pending : List (Nat × Operation)}
    (h : Reconcilable incoming.edits (queueEdits pending))
    (h₁ : shadow.run? incoming.edits = some after₁)
    (h₂ : shadow.run? (queueEdits pending) = some after₂) :
    ∃ incoming' pending' joined, reconcileQueue incoming pending = .ok (incoming', pending') ∧
      after₁.run? (queueEdits pending') = some joined ∧
      after₂.run? incoming'.edits = some joined ∧
      RebasedAll incoming.edits incoming'.edits ∧ RebasedQueue pending pending' := by
  induction pending generalizing shadow incoming after₁ with
  | nil =>
      cases h₂
      exact ⟨incoming, [], after₁, rfl, rfl, h₁, .refl _, .nil⟩
  | cons entry rest ih =>
      rcases entry with ⟨sequence, ours⟩
      obtain ⟨mid, hmid, hlast⟩ := Shadow.run?_append_eq_some.1 h₂
      have hours : Reconcilable incoming.edits ours.edits := fun s hs c hc =>
        h s hs c (List.mem_append_left _ hc)
      obtain ⟨passed, adjusted, corner, htransform, hadjusted, hpassed, hri, hro⟩ :=
        Operation.exists_transform hours h₁ hmid
      have hrest : Reconcilable passed.edits (queueEdits rest) := Reconcilable.rebased
        (fun s hs c hc => h s hs c (List.mem_append_right _ hc)) hri (.refl _)
      obtain ⟨incoming', rest', joined, hqueue, hrun₁, hrun₂, hri', hrrest⟩ :=
        ih hrest hpassed hlast
      refine ⟨incoming', (sequence, adjusted) :: rest', joined, ?_,
        Shadow.run?_append_eq_some.2 ⟨corner, hadjusted, hrun₁⟩, hrun₂, hri.trans hri',
        .cons ⟨rfl, hro⟩ hrrest⟩
      simp [reconcileQueue, htransform, hqueue, bind, Except.bind, pure, Except.pure]

end CoEdit
