import CoEdit.Proofs.Document.Same
import CoEdit.Proofs.Grid

/-!
# Edits that cross on a document

Two edits of one document were reconciled. Each can then be applied behind the other, and the documents show
the same (`exists_crossing`), provided that the two bring along different elements and that neither is aimed
at what the other one brings along (`Edit.Clear`). It does not matter whether what they bring along was in
use before: what goes and comes back with an edit goes and comes back as well where the edit follows
another one (`Follows.exists_applyEdit`). Documents that show the same can be exchanged, so squares can be
put side by side, first in rows (`exists_crossing_row`) and then in grids (`Passes.exists_crossing`).
-/
namespace CoEdit

/-! ## Edits that are reconciled -/

/-- What an element shows after an edit of it, if the edit fits. -/
def View.follow? (view : View) (edit : Edit) : Option View :=
  if edit.inert then some view else view.edit? edit.change

theorem View.follow?_of_inert {edit : Edit} (view : View) (h : edit.inert = true) :
    view.follow? edit = some view := if_pos h

theorem View.follow?_of_active {edit : Edit} (view : View) (h : edit.inert = false) :
    view.follow? edit = view.edit? edit.change := if_neg (by simp [h])

theorem Arena.Lineage.above_mem {nodes : Arena} {id mid top : ElementId}
    {ancestors others : List ElementId} (h : Lineage nodes id ancestors) (hmid : mid ∈ id :: ancestors)
    (hothers : Lineage nodes mid others) (htop : top ∈ mid :: others) : top ∈ id :: ancestors := by
  induction h with
  | root found =>
      rw [List.mem_singleton] at hmid
      subst hmid
      rwa [hothers.unique (.root found)] at htop
  | child found above listed rest ih =>
      rcases List.mem_cons.1 hmid with rfl | hmid
      · rwa [hothers.unique (.child found above listed rest)] at htop
      · exact List.mem_cons_of_mem _ (ih hmid)

namespace Edit

variable {s c s' c' : Edit}

theorem follow?_after {outcome : Outcome Change} {before view : View} (hactive : s.inert = false)
    (h : outcome.follow View.edit? before = some view) :
    before.follow? (s.after outcome) = some view := by
  cases outcome with
  | becomes change =>
      have hafter : (s.after (.becomes change)).inert = false := hactive
      exact (View.follow?_of_active before hafter).trans h
  | dropped => exact h

/-- Two edits that do not get into each other's way: they are not both additions to one number, bring along
different elements, and the first one is not aimed at what the second one brings along. -/
structure Clear (s c : Edit) : Prop where
  compatible : s.Compatible c
  regular : s.change.Regular
  regular' : c.change.Regular
  news : ∀ id ∈ s.news, id ∉ c.news
  spares : s.inert = false → s.target ∉ c.news

theorem Clear.swap (h : s.Clear c) (hspares : c.inert = false → c.target ∉ s.news) : c.Clear s where
  compatible := ⟨h.compatible.second, h.compatible.first, fun id hc hs => h.compatible.apart id hs hc⟩
  regular := h.regular'
  regular' := h.regular
  news := fun id hc hs => h.news id hs hc
  spares := hspares

theorem Clear.rebased (h : s.Clear c) (hs : s.Rebased s') (hc : c.Rebased c') : s'.Clear c' where
  compatible := h.compatible.rebased hs hc
  regular := hs.regular h.regular
  regular' := hc.regular h.regular'
  news := by
    rw [hs.news, hc.news]
    exact h.news
  spares := by
    rw [hs.target, hc.news]
    exact fun hactive => h.spares (hs.active hactive)

end Edit

namespace Document
open Arena

variable {doc first second left right next last : Document} {s c s' c' edit : Edit} {node node' : Node}
  {own other revision : Revision} {view view' seen seen' : View} {record record' : Option Applied}
  {id child top : ElementId}

theorem Rewrites.of_rebased (h : doc.Rewrites s' view next) (hrebased : s.Rebased s') :
    doc.Rewrites s view next where
  sound := h.sound
  root := h.root
  news := by
    intro id node hnode hnews
    rw [h.news hnode (hrebased.news ▸ hnews), hrebased.arrivals]
  target := by
    rw [← hrebased.target, ← hrebased.news]
    exact h.target
  rest := by
    rw [← hrebased.target, ← hrebased.news]
    exact h.rest

/-! ## An edit behind another one -/

/-- What is left of the edit `s` behind another edit `c` of the same document. It makes `view` of what the
target shows there; `view` has the children that `s` leaves, apart from those that `c` brings along; and
if nothing is left of `s`, then `c` has taken out what `s` takes out. -/
structure Follows (doc : Document) (s c left : Edit) (own other : Revision) (view : View) : Prop where
  rebased : s.Rebased left
  fits : ∀ {node}, Entries.find? s.target (doc.revised c other).nodes = some node →
    node.content.view.follow? left = some view
  count : ∀ {content : Content ElementId} {child}, content.Keyed → content.view = view → child ∉ c.news →
    content.children.count child ≤ own.content.children.count child
  covers : left.inert = true → own.removed ⊆ other.removed

section Follows

variable (hdoc : doc.Sound) (hs : doc.Acted s node own) (hc : doc.Acted c node' other)
  (hclear : s.Clear c)
include hdoc hs hc hclear

theorem follows_self (hne : s.target ≠ c.target) :
    doc.Follows s c s own other own.content.view where
  rebased := .refl s
  fits := by
    intro after hafter
    have hnode := (hc.rewrites hdoc hclear.regular').rest hafter (hclear.spares hs.active) hne
    rw [hs.found] at hnode
    cases hnode
    rw [View.follow?_of_active _ hs.active]
    exact view_of_revise (hdoc.keyed hs.found) hs.planned
  count := by
    intro content child hkeyed hview _
    have hkept := (hs.grafts hdoc hclear.regular).keyed
    exact ((Content.children_perm_of_view hkeyed hkept hview).count_eq child).le
  covers := by
    intro hinert
    rw [hs.active] at hinert
    cases hinert

theorem follows_after {outcome outcome' : Outcome Change} (htarget : s.target = c.target)
    (hrebased : outcome.All s.change.Rebased) (hrebased' : outcome'.All c.change.Rebased)
    (hfits : outcome.follow View.edit? other.content.view = some view)
    (hfits' : outcome'.follow View.edit? own.content.view = some view)
    (hcovers : outcome = .dropped → own.removed ⊆ other.removed) :
    doc.Follows s c (s.after outcome) own other view where
  rebased := Edit.rebased_after hrebased
  fits := by
    intro after hafter
    rw [htarget] at hafter
    have hview := (hc.rewrites hdoc hclear.regular').target hafter
      (hc.target_not_mem_news hdoc hclear.regular')
    rw [hview]
    exact Edit.follow?_after hs.active hfits
  count := by
    intro content child hkeyed hview hchild
    have hkept := (hs.grafts hdoc hclear.regular).keyed
    cases outcome' with
    | dropped =>
        have hsame : own.content.view = view := Option.some.inj hfits'
        exact ((Content.children_perm_of_view hkeyed hkept (hview.trans hsame.symm)).count_eq child).le
    | becomes change =>
        have hedit : own.content.view.edit? change = some view := hfits'
        rw [← Content.view_edit? hkept] at hedit
        obtain ⟨joined, hjoined, hsame⟩ := Option.map_eq_some_iff.1 hedit
        have hlawful := hrebased'.lawful hclear.regular'.lawful
        have hperm := Content.children_perm_of_view hkeyed (Content.keyed_edit? hkept hlawful hjoined)
          (hview.trans hsame.symm)
        rw [hperm.count_eq]
        refine Content.count_le_of_edit? hkept hlawful hjoined fun hmem => hchild ?_
        rw [hrebased'.payload] at hmem
        exact (Element.map_id_sublist _).subset hmem
  covers := by
    intro hinert
    cases outcome with
    | dropped => exact hcovers rfl
    | becomes change =>
        have hactive : s.inert = true := hinert
        rw [hs.active] at hactive
        cases hactive

/-- What an edit brings along and is attached behind another edit hangs below a child of the target that
the first edit takes out and the other one has left there. -/
theorem exists_child_of_news (hnews : id ∈ s.news)
    (hid : (doc.revised c other).contains id = true) :
    ∃ child ∈ own.removed, child ∉ other.removed ∧ child ∉ c.news ∧
      Under (doc.revised c other).nodes child id ∧
      ∃ above, Entries.find? s.target (doc.revised c other).nodes = some above ∧
        child ∈ above.content.children := by
  obtain ⟨hattached, hstays⟩ := ((hc.contains_revised_iff hdoc hclear.regular').1 hid).resolve_left
    (hclear.news id hnews)
  obtain ⟨child, hchild, ancestors, hlineage, hmem⟩ :=
    hs.gone_of_news hdoc hclear.regular hnews hattached
  have hlisted := (hs.grafts hdoc hclear.regular).taken child hchild
  -- if the child went, so would everything below it
  have hchildStays : ¬doc.Gone other child := by
    rintro ⟨top, htop, others, hothers, hunder⟩
    exact hstays ⟨top, htop, ancestors, hlineage, hlineage.above_mem hmem hothers hunder⟩
  obtain ⟨others, htarget⟩ := hdoc.reached hs.found
  have hbelow := hc.lineage_stays hdoc hclear.regular'
    (hdoc.lineage_child htarget hs.found hlisted) hchildStays
  refine ⟨child, hchild, fun htaken => ?_, fun hnew => ?_,
    ⟨ancestors, hc.lineage_stays hdoc hclear.regular' hlineage hstays, hmem⟩, ?_⟩
  · exact hstays ⟨child, htaken, ancestors, hlineage, hmem⟩
  · exact hchildStays (hc.gone_of_news hdoc hclear.regular' hnew
      (contains_iff.2 (hlineage.attached hmem)))
  · cases hbelow with
    | child found above listed rest => exact ⟨_, above, listed⟩

/-- What an edit takes out, and what is still there behind the other edit, is taken out there too. -/
theorem Follows.leaves {left : Edit} (f : doc.Follows s c left own other view)
    (hactive : left.inert = false) {above : Node}
    (hfound : Entries.find? s.target (doc.revised c other).nodes = some above)
    (hchild : child ∈ own.removed) (hnew : child ∉ c.news) (hlisted : child ∈ above.content.children) :
    child ∈ above.content.leaving left.change := by
  have hkeyed := hdoc.keyed hs.found
  have hkeyed' := (hc.sound hdoc hclear.regular').keyed hfound
  have hleft := f.rebased.change.lawful hclear.regular.lawful
  have hfits := f.fits hfound
  rw [View.follow?_of_active _ hactive, ← Content.view_edit? hkeyed'] at hfits
  obtain ⟨joined, hedit, hview⟩ := Option.map_eq_some_iff.1 hfits
  rw [hs.removed_eq hdoc] at hchild
  exact Content.leaving_follow hkeyed hkeyed' hclear.regular.lawful hleft f.rebased.change.payload
    (hdoc.children hs.found) (plan_of_revise hkeyed hs.planned).1 hedit
    (f.count (Content.keyed_edit? hkeyed' hleft hedit) hview hnew) hchild hlisted

/-- Behind another edit an edit writes what it writes on its own, but for the view of its target. -/
theorem Follows.exists_applyEdit {left : Edit} (f : doc.Follows s c left own other view) :
    ∃ record right, (doc.revised c other).applyEdit left = .ok (record, right) ∧
      (doc.revised c other).Rewrites s view right := by
  have hnext := hc.sound hdoc hclear.regular'
  have hbelow {id : ElementId} (hnews : id ∈ s.news) :=
    exists_child_of_news hdoc hs hc hclear hnews
  cases hfound : Entries.find? s.target (doc.revised c other).nodes with
  | none =>
      have hidle : (doc.revised c other).contains left.target = false :=
        not_contains_iff.2 (f.rebased.target ▸ hfound)
      refine ⟨none, _, applyEdit_of_idle (.inr hidle), hnext, rfl, ?_, ?_, fun h _ _ => h⟩
      · intro id node hnode hnews
        obtain ⟨-, -, -, -, -, above, habove, -⟩ := hbelow hnews (contains_iff.2 ⟨node, hnode⟩)
        rw [hfound] at habove
        cases habove
      · intro node hnode
        rw [hfound] at hnode
        cases hnode
  | some above =>
      have hfits := f.fits hfound
      cases hinert : left.inert with
      | true =>
          rw [View.follow?_of_inert _ hinert] at hfits
          refine ⟨none, _, applyEdit_of_idle (.inl hinert), hnext, rfl, ?_, ?_, fun h _ _ => h⟩
          · intro id node hnode hnews
            obtain ⟨child, hchild, hstays, -⟩ := hbelow hnews (contains_iff.2 ⟨node, hnode⟩)
            exact absurd (f.covers hinert hchild) hstays
          · intro node hnode _
            rw [hfound] at hnode
            cases hnode
            exact Option.some.inj hfits
      | false =>
          rw [View.follow?_of_active _ hinert] at hfits
          obtain ⟨revision, hacted, hview⟩ := exists_acted_of_fits hnext hinert
            (f.rebased.target.symm ▸ hfound) hfits
            (f.rebased.news ▸ hs.nodup_news hdoc hclear.regular) fun id hnews hattached => by
              obtain ⟨child, hchild, -, hnew, hunder, above', habove', hlisted⟩ :=
                hbelow (f.rebased.news ▸ hnews) hattached
              rw [hfound] at habove'
              cases habove'
              exact ⟨child, f.leaves hdoc hs hc hclear hinert hfound hchild hnew hlisted, hunder⟩
          have hwrites := hacted.rewrites hnext (f.rebased.regular hclear.regular)
          rw [hview] at hwrites
          exact ⟨_, _, hacted.applyEdit_eq, hwrites.of_rebased f.rebased⟩

end Follows

/-! ## One square -/

/-- Whether an edit does nothing to the document. -/
def Idle (doc : Document) (edit : Edit) : Prop :=
  edit.inert = true ∨ doc.contains edit.target = false

/-- An edit that does nothing does nothing behind an edit that does not bring its target along. -/
theorem Idle.applyEdit (h : doc.Idle s) (hdoc : doc.Sound) (hregular : c.change.Regular)
    (hspares : s.inert = false → s.target ∉ c.news) (hc : doc.applyEdit c = .ok (record, next)) :
    next.Idle s := by
  cases hinert : s.inert with
  | true => exact .inl hinert
  | false =>
      refine .inr (Bool.eq_false_iff.2 fun hattached => ?_)
      rcases gains_of_applyEdit hdoc hregular hc _ hattached with hold | hnew
      · rw [h.resolve_left (by simp [hinert])] at hold
        cases hold
      · exact hspares hinert hnew

theorem Idle.rebased (h : doc.Idle s) (hrebased : s.Rebased s') : doc.Idle s' := by
  cases hinert : s'.inert with
  | true => exact .inl hinert
  | false =>
      refine .inr (hrebased.target ▸ h.resolve_left ?_)
      simp [hrebased.active hinert]

/-- Edits that write the same in either order lead to documents that show the same. -/
theorem Rewrites.same {shown shown' : View} (hs : doc.Rewrites s shown first)
    (hc : doc.Rewrites c shown' second) (hleft : first.Rewrites c view' left)
    (hright : second.Rewrites s view right) (hnews : ∀ id ∈ s.news, id ∉ c.news)
    (hown : c.target ∉ c.news) (hspares : s.target ∉ c.news)
    (hspares' : c.target ∉ s.news) (hone : s.target = c.target → view = view')
    (htwo : s.target ≠ c.target → view = shown ∧ view' = shown') : left.Same right where
  left := hleft.sound
  right := hright.sound
  root := by rw [hright.root, hleft.root, hc.root, hs.root]
  view := by
    intro id node node' hnode hnode'
    by_cases hids : id ∈ s.news
    · have hnode := hleft.rest hnode (hnews id hids) fun heq => hspares' (heq ▸ hids)
      rw [hright.news hnode' hids, hs.news hnode hids]
    by_cases hidc : id ∈ c.news
    · have hnode' := hright.rest hnode' hids fun heq => hspares (heq ▸ hidc)
      rw [hleft.news hnode hidc, hc.news hnode' hidc]
    by_cases htarget : id = s.target
    · subst htarget
      rw [hright.target hnode' hids]
      by_cases hsame : s.target = c.target
      · rw [hone hsame]
        rw [hsame] at hnode
        exact (hleft.target hnode hown).symm
      · rw [(htwo hsame).1, hs.target (hleft.rest hnode hidc hsame) hids]
    by_cases htarget' : id = c.target
    · subst htarget'
      rw [hleft.target hnode hidc, (htwo (Ne.symm htarget)).2,
        hc.target (hright.rest hnode' hids htarget) hidc]
    · have hbefore := hs.rest (hleft.rest hnode hidc htarget') hids htarget
      have hbefore' := hc.rest (hright.rest hnode' hids htarget) hidc htarget'
      rw [hbefore] at hbefore'
      cases hbefore'
      rfl

theorem exists_follows (hdoc : doc.Sound) (hs : doc.Acted s node own) (hc : doc.Acted c node' other)
    (hclear : s.Clear c) (hclear' : c.Clear s) (h : s.transform c = .ok (s', c')) :
    ∃ view view', doc.Follows s c s' own other view ∧ doc.Follows c s c' other own view' ∧
      (s.target = c.target → view = view') ∧
      (s.target ≠ c.target → view = own.content.view ∧ view' = other.content.view) := by
  by_cases htarget : s.target = c.target
  · rcases Edit.cases_transform h with ⟨hpass, -⟩ | ⟨-, outcome, outcome', hrule, rfl, rfl⟩
    · simp [hs.active, hc.active, htarget] at hpass
    · have hfound := hs.found
      rw [htarget, hc.found] at hfound
      cases hfound
      have hkeyed := hdoc.keyed hs.found
      have hdelta : ¬(s.change.isDelta = true ∧ c.change.isDelta = true) := fun hboth =>
        hclear.compatible.apart s.target ⟨hs.active, hboth.1, rfl⟩ ⟨hc.active, hboth.2, htarget.symm⟩
      obtain ⟨first, second, view, hanswer, hsecond, hfirst⟩ :=
        Change.joins_transform hclear.regular.lawful hclear.regular'.lawful hdelta
          (view_of_revise hkeyed hs.planned) (view_of_revise hkeyed hc.planned)
      rw [hrule] at hanswer
      cases hanswer
      have hkeeps := Change.keeps_transform hclear.regular.lawful hclear.regular'.lawful _ _ hrule
      have hcovers := Change.covers_transform node.content s.change c.change _ _ hrule
      rw [← hs.removed_eq hdoc, ← hc.removed_eq hdoc] at hcovers
      exact ⟨view, view,
        follows_after hdoc hs hc hclear htarget hkeeps.1 hkeeps.2 hfirst hsecond hcovers.1,
        follows_after hdoc hc hs hclear' htarget.symm hkeeps.2 hkeeps.1 hsecond hfirst hcovers.2,
        fun _ => rfl, fun hne => absurd htarget hne⟩
  · rcases Edit.cases_transform h with ⟨-, rfl, rfl⟩ | ⟨⟨-, -, hsame⟩, -⟩
    · exact ⟨_, _, follows_self hdoc hs hc hclear htarget,
        follows_self hdoc hc hs hclear' (Ne.symm htarget), fun heq => absurd heq htarget,
        fun _ => ⟨rfl, rfl⟩⟩
    · exact absurd hsame htarget

theorem Idle.applyEdit_eq (h : doc.Idle s) (hleft : c.Rebased c')
    (hsame : c' = c ∨ s.inert = false ∧ s.target = c.target) :
    doc.applyEdit c' = doc.applyEdit c := by
  rcases hsame with rfl | ⟨hactive, htarget⟩
  · rfl
  · have hidle : doc.Idle c := .inr (htarget ▸ h.resolve_left (by simp [hactive]))
    rw [applyEdit_of_idle hidle, applyEdit_of_idle (hidle.rebased hleft)]

/-- Two edits that each carry out a plan can each be applied behind the other one. -/
theorem exists_crossing_acted (hdoc : doc.Sound) (hs : doc.Acted s node own)
    (hc : doc.Acted c node' other) (hclear : s.Clear c) (hclear' : c.Clear s)
    (h : s.transform c = .ok (s', c')) :
    ∃ done left done' right, (doc.revised s own).applyEdit c' = .ok (done, left) ∧
      (doc.revised c other).applyEdit s' = .ok (done', right) ∧ left.Same right := by
  obtain ⟨view, view', f, f', hone, htwo⟩ := exists_follows hdoc hs hc hclear hclear' h
  obtain ⟨done, left, hleft, hwritesLeft⟩ := f'.exists_applyEdit hdoc hc hs hclear'
  obtain ⟨done', right, hright, hwritesRight⟩ := f.exists_applyEdit hdoc hs hc hclear
  exact ⟨done, left, done', right, hleft, hright,
    (hs.rewrites hdoc hclear.regular).same (hc.rewrites hdoc hclear.regular') hwritesLeft hwritesRight
      hclear.news (hc.target_not_mem_news hdoc hclear.regular') (hclear.spares hs.active)
      (hclear'.spares hc.active) hone htwo⟩

/-- Two edits of one document, each of which can be applied, can each be applied behind the other one. -/
theorem exists_crossing (hdoc : doc.Sound) (hclear : s.Clear c)
    (hmet : doc.Idle s ∨ (c.inert = false → c.target ∉ s.news))
    (hs : doc.applyEdit s = .ok (record, first)) (hc : doc.applyEdit c = .ok (record', second))
    (h : s.transform c = .ok (s', c')) :
    ∃ done left done' right, first.applyEdit c' = .ok (done, left) ∧
      second.applyEdit s' = .ok (done', right) ∧ left.Same right := by
  obtain ⟨hrebased, hrebased'⟩ :=
    Edit.rebased_of_transform hclear.regular.lawful hclear.regular'.lawful h
  have hpass : (s' = s ∨ c.inert = false ∧ c.target = s.target) ∧
      (c' = c ∨ s.inert = false ∧ s.target = c.target) := by
    rcases Edit.cases_transform h with ⟨-, hsame, hsame'⟩ | ⟨⟨hactive, hactive', htarget⟩, -⟩
    · exact ⟨.inl hsame, .inl hsame'⟩
    · exact ⟨.inr ⟨hactive', htarget.symm⟩, .inr ⟨hactive, htarget⟩⟩
  by_cases hidle : doc.Idle s
  · rw [applyEdit_of_idle hidle] at hs
    cases hs
    have hafter := (hidle.applyEdit hdoc hclear.regular' hclear.spares hc).rebased hrebased
    exact ⟨record', second, none, second, (hidle.applyEdit_eq hrebased' hpass.2).trans hc,
      applyEdit_of_idle hafter, .refl (hdoc.applyEdit hclear.regular' hc)⟩
  · have hclear' := hclear.swap (hmet.resolve_left hidle)
    by_cases hidle' : doc.Idle c
    · rw [applyEdit_of_idle hidle'] at hc
      cases hc
      have hafter := (hidle'.applyEdit hdoc hclear.regular hclear'.spares hs).rebased hrebased'
      exact ⟨none, first, record, first, applyEdit_of_idle hafter,
        (hidle'.applyEdit_eq hrebased hpass.1).trans hs, .refl (hdoc.applyEdit hclear.regular hs)⟩
    · obtain ⟨node, own, hacted, -, rfl⟩ := (cases_applyEdit hs).resolve_left fun h => hidle h.1
      obtain ⟨node', other, hacted', -, rfl⟩ := (cases_applyEdit hc).resolve_left fun h => hidle' h.1
      exact exists_crossing_acted hdoc hacted hacted' hclear hclear' h

/-! ## Rows and grids -/

variable {ss cs ss' cs' edits : List Edit} {records : List Applied} {ids : List ElementId}

/-- A run of edits beside edits that are aimed at `ids`: an edit of such an element finds it attached, and
an edit that does something does not bring any of them along. -/
inductive Passes (ids : List ElementId) : Document → List Edit → Document → Prop
  | nil (doc : Document) : Passes ids doc [] doc
  | cons {doc next last : Document} {edit : Edit} {edits : List Edit} {record : Option Applied}
      (met : edit.inert = false → edit.target ∈ ids → doc.contains edit.target = true)
      (apart : doc.Idle edit ∨ ∀ id ∈ ids, id ∉ edit.news)
      (taken : doc.applyEdit edit = .ok (record, next)) (rest : Passes ids next edits last) :
      Passes ids doc (edit :: edits) last

namespace Passes

variable {more : List Edit} {mid : Document}

theorem append (h : doc.Passes ids edits mid) (hrest : mid.Passes ids more last) :
    doc.Passes ids (edits ++ more) last := by
  induction h with
  | nil doc => exact hrest
  | cons met apart taken rest ih => exact .cons met apart taken (ih hrest)

theorem exists_runs (h : doc.Passes ids edits last) : ∃ records, doc.Runs edits records last := by
  induction h with
  | nil doc => exact ⟨[], .nil doc⟩
  | cons met apart taken rest ih =>
      obtain ⟨records, hruns⟩ := ih
      exact ⟨_, .cons taken hruns⟩

theorem mono {fewer : List ElementId} (h : doc.Passes ids edits last) (hsub : fewer ⊆ ids) :
    doc.Passes fewer edits last := by
  induction h with
  | nil doc => exact .nil doc
  | cons met apart taken rest ih =>
      exact .cons (fun hactive hid => met hactive (hsub hid))
        (apart.imp_right fun hnews id hid => hnews id (hsub hid)) taken ih

end Passes

theorem exists_crossing_row (hdoc : doc.Sound) (hregular : s.change.Regular)
    (hclear : ∀ c ∈ cs, s.Clear c) (hmet : doc.Idle s ∨ Spares s.news cs)
    (hs : doc.applyEdit s = .ok (record, first)) (hcs : doc.Runs cs records second)
    (h : s.transformAll cs = .ok (s', cs')) :
    (∃ done left record' right, first.Runs cs' done left ∧
      second.applyEdit s' = .ok (record', right) ∧ left.Same right) ∧
      s.Rebased s' ∧ RebasedAll cs cs' := by
  induction hcs generalizing s record first cs' with
  | nil doc =>
      cases h
      exact ⟨⟨[], first, record, first, .nil first, hs, .refl (hdoc.applyEdit hregular hs)⟩, .refl _,
        .nil⟩
  | @cons doc mid second c rest recordC records taken _ ih =>
      obtain ⟨s₁, c', rest', hcell, hrest, rfl⟩ := Edit.transformAll_cons_iff.1 h
      have hhead := hclear c List.mem_cons_self
      obtain ⟨hrebased, hrebased'⟩ :=
        Edit.rebased_of_transform hregular.lawful hhead.regular'.lawful hcell
      obtain ⟨done, left₁, done', right₁, hleft₁, hright₁, hsame⟩ := exists_crossing hdoc hhead
        (hmet.imp_right fun h => h c List.mem_cons_self) hs taken hcell
      have hmet' : mid.Idle s₁ ∨ Spares s₁.news rest := by
        rw [hrebased.news]
        exact hmet.imp
          (fun hidle => (hidle.applyEdit hdoc hhead.regular' hhead.spares taken).rebased hrebased)
          fun h d hd => h d (List.mem_cons_of_mem _ hd)
      obtain ⟨⟨doneAll, left₂, record', right₂, hleft₂, hright₂, hsame₂⟩, hrebasedS, hrebasedRest⟩ :=
        ih (hdoc.applyEdit hhead.regular' taken) (hrebased.regular hregular)
          (fun d hd => (hclear d (List.mem_cons_of_mem _ hd)).rebased hrebased (.refl d)) hmet'
          hright₁ hrest
      have hregularRest : ∀ d ∈ rest', d.change.Regular := hrebasedRest.regular fun d hd =>
        (hclear d (List.mem_cons_of_mem _ hd)).regular'
      -- the rest of the row starts from the other corner of the first square
      obtain ⟨doneAll', left₃, hleft₃, hsame₃⟩ := hsame.symm.exists_runs hregularRest hleft₂
      exact ⟨⟨_, left₃, record', right₂, .cons hleft₁ hleft₃, hright₂, hsame₃.symm.trans hsame₂⟩,
        hrebased.trans hrebasedS, .cons hrebased' hrebasedRest⟩

/-- Two runs of edits on one document can each be applied behind the other, and the documents show the
same. -/
theorem Passes.exists_crossing (h : doc.Passes ids ss first) (hdoc : doc.Sound)
    (hregular : ∀ s ∈ ss, s.change.Regular) (hregular' : ∀ c ∈ cs, c.change.Regular)
    (hclear : ∀ s ∈ ss, ∀ c ∈ cs, s.Clear c) (haims : ∀ c ∈ cs, c.inert = false → c.target ∈ ids)
    (hcs : doc.Runs cs records second) (hlists : transformLists ss cs = .ok (ss', cs')) :
    (∃ done left done' right, first.Runs cs' done left ∧ second.Runs ss' done' right ∧
      left.Same right) ∧ RebasedAll ss ss' ∧ RebasedAll cs cs' := by
  induction h generalizing cs records second ss' cs' with
  | nil doc =>
      cases hlists
      exact ⟨⟨records, second, [], second, hcs, .nil second, .refl (hcs.sound hdoc hregular')⟩, .nil,
        .refl cs⟩
  | @cons doc next last s rest record met apart taken _ ih =>
      rw [List.forall_mem_cons] at hregular hclear
      obtain ⟨s', cs₁, rest', hrow, hrest, rfl⟩ := transformLists_cons_iff.1 hlists
      have hmet : doc.Idle s ∨ Spares s.news cs := apart.imp_right fun hnews c hc hactive =>
        hnews _ (haims c hc hactive)
      obtain ⟨⟨done, left₁, record', right₁, hleft₁, hright₁, hsame⟩, hrebased, hrebased'⟩ :=
        exists_crossing_row hdoc hregular.1 hclear.1 hmet taken hcs hrow
      have hclear' : ∀ e ∈ rest, ∀ c ∈ cs₁, e.Clear c := by
        intro e he c hc
        obtain ⟨original, hmem, hc⟩ := hrebased'.exists_of_mem hc
        exact (hclear.2 e he original hmem).rebased (.refl e) hc
      have haims' : ∀ c ∈ cs₁, c.inert = false → c.target ∈ ids := by
        intro c hc hactive
        obtain ⟨original, hmem, hc⟩ := hrebased'.exists_of_mem hc
        exact hc.target ▸ haims original hmem (hc.active hactive)
      obtain ⟨⟨doneC, left₂, doneS, right₂, hleft₂, hright₂, hsame₂⟩, hrebasedRest, hrebasedAll⟩ :=
        ih (hdoc.applyEdit hregular.1 taken) hregular.2 (hrebased'.regular hregular') hclear' haims'
          hleft₁ hrest
      obtain ⟨doneS', right₃, hright₃, hsame₃⟩ :=
        hsame.exists_runs (hrebasedRest.regular hregular.2) hright₂
      exact ⟨⟨doneC, left₂, _, right₃, hleft₂, .cons hright₁ hright₃, hsame₂.trans hsame₃⟩,
        .cons hrebased hrebasedRest, hrebased'.trans hrebasedAll⟩

end Document
end CoEdit
