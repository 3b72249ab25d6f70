import CoEdit.Path.Rebase
import CoEdit.Proofs.Document.Same
import CoEdit.Proofs.Document.Stored
import CoEdit.Proofs.Path.Address

/-!
# Rebased paths and edited documents

Rebasing looks at paths alone: at the step by which a path continues the path of the target, and at the change.
What it says is held here against the document after the edit. A change tells where the child at a step goes
(`Change.Carries`), everything else that stays is reached as before (`Acted.walk?_stays`), and so rebasing tells
where every element is (`Acted.rebase_tells`), for walks that read steps in either way. For the paths of elements
this leaves no condition (`Reachable.rebase_pathOf`). A path that was read back from a pointer may name a property
by an index, which a change of that very property does not recognise; these are the paths that rebasing gets wrong
(`Reachable.rebase_reread`).
-/
namespace CoEdit
open Arena

variable {change : Change} {read : Reader} {content after : Content ElementId} {step : Path.Step}
  {child : ElementId}

theorem Path.stepBelow?_eq_some_iff {ancestor descendant : Path} :
    stepBelow? ancestor descendant = some step ↔ ∃ rest, descendant = ancestor ++ step :: rest := by
  constructor
  · intro h
    have habove : isAncestorOf ancestor descendant = true := by
      by_contra hnot
      rw [stepBelow?, if_neg hnot] at h
      cases h
    obtain ⟨next, rest, rfl⟩ := (isAncestorOf_iff _ _).1 habove
    rw [stepBelow?_append] at h
    cases h
    exact ⟨rest, rfl⟩
  · rintro ⟨rest, rfl⟩
    exact stepBelow?_append _ _ _

/-- Whether what is said of the path that led to an element tells where it is now. -/
structure PathChange.Tells (outcome : PathChange) (before : Path) (attached : Prop) (leads : Path → Prop) :
    Prop where
  obsolete_iff : outcome = .obsolete ↔ ¬attached
  of_updated : ∀ {moved}, outcome = .updated moved → moved ≠ before ∧ leads moved
  of_unchanged : outcome = .unchanged → leads before

namespace PathChange.Tells

variable {before moved : Path} {attached : Prop} {leads : Path → Prop}

theorem unchanged (h : attached) (hleads : leads before) : Tells .unchanged before attached leads :=
  ⟨by simpa using h, nofun, fun _ => hleads⟩

theorem obsolete (h : ¬attached) : Tells .obsolete before attached leads :=
  ⟨by simpa using h, nofun, nofun⟩

theorem updated (h : attached) (hne : moved ≠ before) (hleads : leads moved) :
    Tells (.updated moved) before attached leads := by
  refine ⟨by simpa using h, fun hmoved => ?_, nofun⟩
  cases hmoved
  exact ⟨hne, hleads⟩

end PathChange.Tells

/-! ## The step into the target -/

/-- The child that a step leads to leaves if the step is lost, and stays where the new step leads if not. -/
def Change.Carries (change : Change) (read : Reader) (content after : Content ElementId) (step : Path.Step)
    (child : ElementId) : Prop :=
  match change.followStep? step with
  | none => child ∈ content.leaving change
  | some next => child ∉ content.leaving change ∧ read next after = some child

theorem Change.carries_iff {next : Path.Step} (h : change.followStep? step = some next) :
    change.Carries read content after step child ↔
      child ∉ content.leaving change ∧ read next after = some child := by
  rw [Change.Carries, h]

theorem Change.carries_ite {lost : Prop} [Decidable lost] {next : Path.Step}
    (h : change.followStep? step = if lost then none else some next)
    (hlost : lost → child ∈ content.leaving change)
    (hkept : ¬lost → child ∉ content.leaving change ∧ read next after = some child) :
    change.Carries read content after step child := by
  rw [Change.Carries, h]
  by_cases hcase : lost
  · rw [if_pos hcase]
    exact hlost hcase
  · rw [if_neg hcase]
    exact hkept hcase

theorem ArrayChange.carries {change : ArrayChange} {items rest : List ElementId} {k : Nat}
    (hlawful : change.Lawful) (hnodup : items.Nodup) (h : change.applied? Element.id items = some rest)
    (hk : items[k]? = some child) :
    (Change.array change).Carries place? (.array items) (.array rest) (.index k) child := by
  have hlt := (List.getElem?_eq_some_iff.1 hk).1
  -- another index leads to another item
  have hother {i : Nat} (hne : k ≠ i) : child ∉ items[i]?.toList := fun hmem =>
    hne ((List.getElem?_inj hlt hnodup).1 (hk.trans (Option.mem_toList.1 hmem).symm))
  cases change with
  | insert index value =>
      obtain ⟨hindex, hafter⟩ := Option.ite_none_right_eq_some.1 h
      cases hafter
      refine ⟨List.not_mem_nil, ?_⟩
      simp only [place?, List.getElem?_insertIdx, Position.afterInsert]
      split_ifs <;> first | omega | exact hk
  | remove index =>
      obtain ⟨hindex, hafter⟩ := Option.ite_none_right_eq_some.1 h
      cases hafter
      refine Change.carries_ite (apply_ite (Option.map Path.Step.index) _ _ _) ?_ fun hne => ⟨hother hne, ?_⟩
      · rintro rfl
        exact Option.mem_toList.2 hk
      · simp only [place?, List.getElem?_eraseIdx, Position.afterRemove]
        rcases lt_or_gt_of_ne hne with hbefore | hafter
        · rw [if_neg (c := index + 1 ≤ k) (by omega), if_neg (c := index < k) (by omega), if_pos hbefore]
          exact hk
        · rw [if_pos (c := index + 1 ≤ k) hafter, if_neg (by omega), Nat.sub_add_cancel (by omega)]
          exact hk
  | replace index value =>
      obtain ⟨hindex, hafter⟩ := Option.ite_none_right_eq_some.1 h
      cases hafter
      refine Change.carries_ite (apply_ite (Option.map Path.Step.index) _ _ _) ?_ fun hne => ⟨hother hne, ?_⟩
      · rintro rfl
        exact Option.mem_toList.2 hk
      · exact (List.getElem?_set_ne (Ne.symm hne)).trans hk
  | move source target =>
      obtain ⟨⟨hsource, htarget⟩, hafter⟩ := Option.ite_none_right_eq_some.1 h
      cases hafter
      exact ⟨List.not_mem_nil, (Position.getElem?_relocate hsource htarget).trans hk⟩
  | reorder order =>
      obtain ⟨hlen, hafter⟩ := Option.ite_none_right_eq_some.1 h
      cases hafter
      refine ⟨List.not_mem_nil, ?_⟩
      have hbelow : ∀ i ∈ order, i < items.length := fun i hi => hlen ▸ Reorder.lt_of_mem hlawful hi
      change (Reorder.permute order items)[Reorder.follow order k]? = some child
      rw [Reorder.getElem?_permute hbelow, Reorder.getElem?_follow hlawful (hlen.symm ▸ hlt)]
      exact hk
  | set values => exact List.mem_of_getElem? hk

theorem ObjectChange.carries {change : ObjectChange} {props rest : List (String × ElementId)} {name : String}
    (hdistinct : Entries.Distinct props) (hnodup : (Entries.values props).Nodup)
    (h : change.applied? Element.id props = some rest) (hname : Entries.find? name props = some child) :
    (Change.object change).Carries place? (.object props) (.object rest) (.key name) child := by
  -- another name leads to another child
  have hother {prop : String} (hne : name ≠ prop) : child ∉ (Entries.find? prop props).toList := fun hmem =>
    hne (congrArg Prod.fst (List.inj_on_of_nodup_map hnodup (Entries.mem_of_find? hname)
      (Entries.mem_of_find? (Option.mem_toList.1 hmem)) rfl))
  have hview := ObjectChange.find?_applied? hdistinct change
  rw [h, Option.map_some] at hview
  -- what is written under another name changes nothing here
  have hkept {prop : String} {slot : Option ElementId} (hne : name ≠ prop)
      (hrest : some (Function.update (fun name => Entries.find? name props) prop slot) =
        some fun name => Entries.find? name rest) :
      Entries.find? name rest = some child := by
    rw [← congrFun (Option.some.inj hrest) name, Function.update_of_ne hne]
    exact hname
  have hreplaced {prop : String} {slot : Option ElementId}
      (hfollow : (Change.object change).followStep? (.key name) =
        if Path.Step.key name = .key prop then none else some (.key name))
      (hleaving : (Content.object props).leaving (.object change) = (Entries.find? prop props).toList)
      (hrest : some (Function.update (fun name => Entries.find? name props) prop slot) =
        some fun name => Entries.find? name rest) :
      (Change.object change).Carries place? (.object props) (.object rest) (.key name) child := by
    refine Change.carries_ite hfollow (fun hsame => ?_) fun hne => ?_
    · cases hsame
      rw [hleaving]
      exact Option.mem_toList.2 hname
    · have hne : name ≠ prop := fun hsame => hne (congrArg Path.Step.key hsame)
      rw [hleaving]
      exact ⟨hother hne, hkept hne hrest⟩
  cases change with
  | add prop value =>
      obtain ⟨habsent, hrest⟩ := Option.ite_none_right_eq_some.1 hview.symm
      refine ⟨List.not_mem_nil, hkept (fun hsame => ?_) hrest⟩
      subst hsame
      exact Option.some_ne_none child (hname.symm.trans (Option.isNone_iff_eq_none.1 habsent))
  | assign prop value =>
      obtain ⟨-, hrest⟩ := Option.ite_none_right_eq_some.1 hview.symm
      exact hreplaced rfl rfl hrest
  | remove prop =>
      obtain ⟨-, hrest⟩ := Option.ite_none_right_eq_some.1 hview.symm
      exact hreplaced rfl rfl hrest
  | set values => exact List.mem_map_of_mem (Entries.mem_of_find? hname)

theorem Change.carries_place? (hkeyed : content.Keyed) (hnodup : content.children.Nodup)
    (hlawful : change.Lawful) (h : content.edit? Element.id change = some after)
    (hchild : place? step content = some child) : change.Carries place? content after step child := by
  cases content with
  | array items =>
      cases step with
      | key name => cases hchild
      | index k =>
          cases change with
          | array c =>
              obtain ⟨rest, hrest, rfl⟩ := Option.map_eq_some_iff.1 h
              exact ArrayChange.carries hlawful hnodup hrest hchild
          | _ => cases h
  | object props =>
      cases step with
      | index k => cases hchild
      | key name =>
          cases change with
          | object c =>
              obtain ⟨rest, hrest, rfl⟩ := Option.map_eq_some_iff.1 h
              exact ObjectChange.carries hkeyed hnodup hrest hchild
          | _ => cases h
  | _ => cases step <;> cases hchild

/-- Whether the change takes out what the step leads to but names by a key what the step has as an index. -/
def Change.Misses : Change → Path.Step → Prop
  | .object (.assign prop _), .index i => prop = toString i
  | .object (.remove prop), .index i => prop = toString i
  | _, _ => False

theorem Change.Carries.child? (h : change.Carries place? content after step child) :
    change.Carries Arena.child? content after step child := by
  cases hnext : change.followStep? step with
  | none =>
      rw [Change.Carries, hnext] at h ⊢
      exact h
  | some next => exact (carries_iff hnext).2 (((carries_iff hnext).1 h).imp_right child?_of_place?)

/-- An index into an object fares like the key with its decimal, unless the change misses it. -/
theorem Change.followStep?_index {c : ObjectChange} {i : Nat} (hsees : ¬(Change.object c).Misses (.index i)) :
    (Change.object c).followStep? (.key (toString i)) = none ∧ (Change.object c).followStep? (.index i) = none ∨
      (Change.object c).followStep? (.key (toString i)) = some (.key (toString i)) ∧
        (Change.object c).followStep? (.index i) = some (.index i) := by
  cases c with
  | add prop value => exact .inr ⟨rfl, rfl⟩
  | assign prop value => exact .inr ⟨if_neg fun hsame => hsees (Path.Step.key.inj hsame).symm, rfl⟩
  | remove prop => exact .inr ⟨if_neg fun hsame => hsees (Path.Step.key.inj hsame).symm, rfl⟩
  | set values => exact .inl ⟨rfl, rfl⟩

theorem Change.carries_child? (hkeyed : content.Keyed) (hnodup : content.children.Nodup)
    (hlawful : change.Lawful) (h : content.edit? Element.id change = some after)
    (hchild : child? step content = some child) (hsees : ¬change.Misses step) :
    change.Carries child? content after step child := by
  rw [child?_eq] at hchild
  have hcarries := carries_place? hkeyed hnodup hlawful h hchild
  cases content with
  | object props =>
      cases step with
      | key name => exact hcarries.child?
      | index i =>
          cases change with
          | object c =>
              obtain ⟨rest, -, rfl⟩ := Option.map_eq_some_iff.1 h
              change (Change.object c).Carries place? _ _ (.key (toString i)) child at hcarries
              rcases followStep?_index hsees with ⟨hkey, hindex⟩ | ⟨hkey, hindex⟩
              · rw [Carries, hkey] at hcarries
                rw [Carries, hindex]
                exact hcarries
              · exact (carries_iff hindex).2 ((carries_iff hkey).1 hcarries)
          | _ => cases h
  | _ => exact hcarries.child?

theorem Change.leaving_of_misses (h : content.edit? Element.id change = some after)
    (hchild : child? step content = some child) (hmisses : change.Misses step) :
    change.followStep? step = some step ∧ child ∈ content.leaving change := by
  cases change with
  | object c =>
      cases step with
      | key name => cases c <;> cases hmisses
      | index k =>
          cases content with
          | object props =>
              cases c with
              | assign prop value =>
                  cases hmisses
                  exact ⟨rfl, Option.mem_toList.2 hchild⟩
              | remove prop =>
                  cases hmisses
                  exact ⟨rfl, Option.mem_toList.2 hchild⟩
              | _ => cases hmisses
          | _ => cases h
  | _ => cases hmisses

namespace Document

variable {doc next : Document} {edit : Edit} {node : Node} {revision : Revision} {top id : ElementId}
  {path ancestor : Path}

/-! ## Walks after an edit -/

theorem Sound.under_of_walk? (hdoc : doc.Sound) (hread : read.Descends) (htop : doc.contains top = true)
    (hwalk : walk? read doc.nodes top path = some id) : Under doc.nodes top id := by
  induction path using List.reverseRecOn generalizing id with
  | nil =>
      cases hwalk
      obtain ⟨node, hnode⟩ := contains_iff.1 htop
      exact hdoc.under_self hnode
  | append_singleton path step ih =>
      obtain ⟨parent, node, hfront, hnode, hchild⟩ := walk?_concat_eq_some.1 hwalk
      obtain ⟨ancestors, hlineage, hmem⟩ := ih hfront
      exact ⟨parent :: ancestors, hdoc.lineage_child hlineage hnode (hread hchild), List.mem_cons_of_mem _ hmem⟩

namespace Acted

variable (h : doc.Acted edit node revision) (hdoc : doc.Sound) (hregular : edit.change.Regular)
include h hdoc hregular

theorem walk?_stays (hread : read.Descends) (hwalk : walk? read doc.nodes top path = some id)
    (havoids : ∀ front step back, path = front ++ step :: back →
      walk? read doc.nodes top front ≠ some edit.target)
    (hstays : ¬doc.Gone revision id) :
    walk? read (doc.revised edit revision).nodes top path = some id := by
  have g := h.grafts hdoc hregular
  induction path using List.reverseRecOn generalizing id with
  | nil => exact hwalk
  | append_singleton path step ih =>
      obtain ⟨parent, ⟨above, content⟩, hfront, hnode, hchild⟩ := walk?_concat_eq_some.1 hwalk
      have hparent := (g.parent_stays hdoc hnode (hread hchild) fun hmem => hstays ((g.mem_detached id).1 hmem)).1
      obtain ⟨after, hafter, hsame⟩ := g.find?_of_stays hnode hparent
      have hne : edit.target ≠ parent := by
        rintro rfl
        exact havoids path step [] rfl hfront
      have hrest : walk? read (doc.revised edit revision).nodes top path = some parent := by
        refine ih hfront (fun front next back hpath => ?_) fun hgone => hparent ((g.mem_detached parent).2 hgone)
        exact havoids front next (back ++ [step]) (by rw [hpath, List.append_assoc, List.cons_append])
      have hkept : read step after = some id := by
        rw [hsame hne]
        exact hchild
      exact walk?_concat_eq_some.2 ⟨parent, _, hrest, hafter, hkept⟩

theorem walk?_target (hread : read.Descends) (htarget : walk? read doc.nodes doc.root ancestor = some edit.target) :
    walk? read (doc.revised edit revision).nodes doc.root ancestor = some edit.target := by
  have g := h.grafts hdoc hregular
  refine h.walk?_stays hdoc hregular hread htarget (fun front step back hpath hfront => ?_)
    fun hgone => g.target_stays hdoc ((g.mem_detached _).2 hgone)
  -- a shorter walk does not lead there
  have hlength := hdoc.length_eq_of_walk? hread hfront htarget
  rw [hpath, List.length_append, List.length_cons] at hlength
  omega

theorem exists_front_of_gone (hread : read.Descends) (hwalk : walk? read doc.nodes doc.root path = some id)
    (hgone : doc.Gone revision id) :
    ∃ front step back, path = front ++ step :: back ∧
      walk? read doc.nodes doc.root front = some edit.target := by
  obtain ⟨ancestors, hlineage, -, hpassed⟩ := hdoc.exists_lineage hread hwalk
  obtain ⟨child, hchild, ancestors', hlineage', hmem⟩ := hgone
  cases hlineage.unique hlineage'
  obtain ⟨content, hfound⟩ := hdoc.listed h.found ((h.grafts hdoc hregular).taken child hchild)
  exact hpassed edit.target (hlineage.parent_mem hmem hfound)

omit hregular in
/-- Below the target a walk enters a child, and what it leads to lies under the child. -/
theorem exists_child_below (hread : read.Descends) {step : Path.Step} {rest : Path}
    (htarget : walk? read doc.nodes doc.root ancestor = some edit.target)
    (hwalk : walk? read doc.nodes doc.root (ancestor ++ step :: rest) = some id) :
    ∃ child, read step node.content = some child ∧ walk? read doc.nodes child rest = some id ∧
      Under doc.nodes child id := by
  rw [walk?_append, htarget, Option.bind_some, walk?_cons_eq_some] at hwalk
  obtain ⟨_, child, hfound, hchild, hrest⟩ := hwalk
  rw [h.found] at hfound
  cases hfound
  obtain ⟨content, hattached⟩ := hdoc.listed h.found (hread hchild)
  exact ⟨child, hchild, hrest, hdoc.under_of_walk? hread (contains_iff.2 ⟨_, hattached⟩) hrest⟩

/-- Below the target the edit takes out what it loses the step to, and the rest moves with the step. -/
theorem cases_below (hread : read.Descends) {step : Path.Step} {rest : Path}
    (htarget : walk? read doc.nodes doc.root ancestor = some edit.target)
    (hwalk : walk? read doc.nodes doc.root (ancestor ++ step :: rest) = some id)
    (hcarries : ∀ {child}, read step node.content = some child →
      edit.change.Carries read node.content revision.content step child) :
    edit.change.followStep? step = none ∧ doc.Gone revision id ∨
      ∃ next, edit.change.followStep? step = some next ∧ ¬doc.Gone revision id ∧
        walk? read (doc.revised edit revision).nodes doc.root (ancestor ++ next :: rest) = some id := by
  have g := h.grafts hdoc hregular
  have hremoved := h.removed_eq hdoc
  obtain ⟨child, hchild, hrest, hunder⟩ := h.exists_child_below hdoc hread htarget hwalk
  have hkept := hcarries hchild
  cases hnext : edit.change.followStep? step with
  | none =>
      rw [Change.Carries, hnext] at hkept
      exact .inl ⟨rfl, child, hremoved ▸ hkept, hunder⟩
  | some next =>
      obtain ⟨hleft, hchild'⟩ := (Change.carries_iff hnext).1 hkept
      have hstays : ¬doc.Gone revision id := by
        rintro ⟨other, hother, hunder'⟩
        cases hdoc.children_apart h.found (g.taken other hother) (hread hchild) hunder' hunder
        exact hleft (hremoved ▸ hother)
      refine .inr ⟨next, rfl, hstays, ?_⟩
      rw [walk?_append, Option.bind_eq_some_iff]
      refine ⟨edit.target, h.walk?_target hdoc hregular hread htarget,
        walk?_cons_eq_some.2 ⟨_, child, g.find?_target hdoc, hchild', ?_⟩⟩
      refine h.walk?_stays hdoc hregular hread hrest (fun front _ _ _ hfront => ?_) hstays
      -- a longer walk does not lead to the target again
      have hlong : walk? read doc.nodes doc.root (ancestor ++ step :: front) = some edit.target := by
        rw [walk?_append, htarget, Option.bind_some]
        exact walk?_cons_eq_some.2 ⟨node, child, h.found, hchild, hfront⟩
      have hlength := hdoc.length_eq_of_walk? hread hlong htarget
      rw [List.length_append, List.length_cons] at hlength
      omega

/-- Rebasing tells where an element is, if nothing but the path of the target leads to the target above it and
the change carries the step below. -/
theorem rebase_tells (hread : read.Descends) (htarget : walk? read doc.nodes doc.root ancestor = some edit.target)
    (hwalk : walk? read doc.nodes doc.root path = some id)
    (honly : ∀ {front back}, path = front ++ back →
      walk? read doc.nodes doc.root front = some edit.target → front = ancestor)
    (hcarries : ∀ {step child}, Path.stepBelow? ancestor path = some step → read step node.content = some child →
      edit.change.Carries read node.content revision.content step child) :
    (edit.rebase ancestor path).Tells path (¬doc.Gone revision id) fun moved =>
      walk? read (doc.revised edit revision).nodes doc.root moved = some id := by
  rw [Edit.rebase, h.active, if_neg Bool.false_ne_true]
  cases hbelow : Path.stepBelow? ancestor path with
  | none =>
      have havoids : ∀ front step back, path = front ++ step :: back →
          walk? read doc.nodes doc.root front ≠ some edit.target := by
        intro front step back hpath hfront
        rw [honly hpath hfront] at hpath
        cases hbelow.symm.trans (Path.stepBelow?_eq_some_iff.2 ⟨back, hpath⟩)
      have hstays : ¬doc.Gone revision id := by
        intro hgone
        obtain ⟨front, step, back, hpath, hfront⟩ := h.exists_front_of_gone hdoc hregular hread hwalk hgone
        exact havoids front step back hpath hfront
      exact .unchanged hstays (h.walk?_stays hdoc hregular hread hwalk havoids hstays)
  | some step =>
      obtain ⟨rest, rfl⟩ := Path.stepBelow?_eq_some_iff.1 hbelow
      rcases h.cases_below hdoc hregular hread htarget hwalk (hcarries hbelow) with
        ⟨hnext, hgone⟩ | ⟨next, hnext, hstays, hmoved⟩
      · dsimp only
        rw [hnext]
        exact .obsolete (not_not.2 hgone)
      · dsimp only
        rw [hnext]
        dsimp only
        split_ifs with hsame
        · subst hsame
          exact .unchanged hstays hmoved
        · have hset : (ancestor ++ step :: rest).set ancestor.length next = ancestor ++ next :: rest := by
            rw [List.set_append_right _ _ le_rfl, Nat.sub_self, List.set_cons_zero]
          rw [hset]
          exact .updated hstays (fun heq => hsame (List.head_eq_of_cons_eq (List.append_cancel_left heq))) hmoved

omit hregular in
/-- Rebasing leaves a path alone that the change misses, and the element goes. -/
theorem rebase_of_misses {step : Path.Step} (htarget : doc.resolve? ancestor = some edit.target)
    (hwalk : doc.resolve? path = some id) (hbelow : Path.stepBelow? ancestor path = some step)
    (hmisses : edit.change.Misses step) :
    edit.rebase ancestor path = .unchanged ∧ doc.Gone revision id := by
  obtain ⟨rest, rfl⟩ := Path.stepBelow?_eq_some_iff.1 hbelow
  obtain ⟨child, hchild, -, hunder⟩ := h.exists_child_below hdoc child?_descends htarget hwalk
  have hplan := (h.plan hdoc).1
  obtain ⟨hnext, hleaves⟩ := Change.leaving_of_misses hplan hchild hmisses
  constructor
  · rw [Edit.rebase, h.active, if_neg Bool.false_ne_true, hbelow]
    dsimp only
    rw [hnext]
    exact if_pos rfl
  · exact ⟨child, h.removed_eq hdoc ▸ hleaves, hunder⟩

/-- If what the edit brings along is new, the attached elements that go are the ones that are not attached
afterwards. -/
theorem not_gone_iff (hfresh : ∀ new ∈ edit.news, doc.contains new = false) (hid : doc.contains id = true) :
    ¬doc.Gone revision id ↔ (doc.revised edit revision).contains id = true := by
  rw [h.contains_revised_iff hdoc hregular]
  constructor
  · exact fun hstays => .inr ⟨hid, hstays⟩
  · rintro (hnews | ⟨-, hstays⟩)
    · exact absurd hid (by rw [hfresh id hnews]; exact Bool.false_ne_true)
    · exact hstays

end Acted

/-! ## Rebasing and the document -/

/-- Rebased, the path of an element is its path afterwards, and it is obsolete if and only if the element is gone. -/
theorem Reachable.rebase_pathOf {record : Applied} (hdoc : doc.Reachable) (hregular : edit.change.Regular)
    (happly : doc.applyEdit edit = .ok (some record, next))
    (hfresh : ∀ new ∈ edit.news, doc.contains new = false) (hid : doc.contains id = true) :
    ∃ ancestor path, doc.pathOf? edit.target = some ancestor ∧ doc.pathOf? id = some path ∧
      (edit.rebase ancestor path).Tells path (next.contains id = true) fun moved => next.pathOf? id = some moved := by
  have h := hdoc.sound
  rcases cases_applyEdit happly with ⟨-, hnone, -⟩ | ⟨node, revision, hacted, -, rfl⟩
  · cases hnone
  obtain ⟨ancestor, htarget⟩ := h.exists_walk? (contains_iff.2 ⟨node, hacted.found⟩)
  obtain ⟨path, hwalk⟩ := h.exists_walk? hid
  refine ⟨ancestor, path, h.pathOf?_eq_some_iff.2 htarget, h.pathOf?_eq_some_iff.2 hwalk, ?_⟩
  have htells := hacted.rebase_tells h hregular place?_descends htarget hwalk
    (fun _ hfront => Option.some.inj ((h.pathOf?_eq_some_iff.2 hfront).symm.trans (h.pathOf?_eq_some_iff.2 htarget)))
    fun _ hchild => Change.carries_place? (h.keyed hacted.found) (h.children hacted.found) hregular.lawful
      (plan_of_revise (h.keyed hacted.found) hacted.planned).1 hchild
  rw [hacted.not_gone_iff h hregular hfresh hid] at htells
  simp only [(hacted.sound h hregular).pathOf?_eq_some_iff]
  exact htells

def putNote : Edit := ⟨"drawer", .array (.insert 0 (.mk "note" .null)), false⟩

theorem regular_putNote : putNote.change.Regular :=
  Change.Legal.regular (by decide +kernel)

theorem rebase_pathOf_slip : ∃ record next, cabinet.applyEdit putNote = .ok (some record, next) ∧
    putNote.rebase [.key "a/~1"] [.key "a/~1", .index 0] = .updated [.key "a/~1", .index 1] ∧
    next.pathOf? "slip" = some [.key "a/~1", .index 1] := by
  have hslip : cabinet.contains "slip" = true := rfl
  refine ⟨_, _, rfl, rfl, ?_⟩
  obtain ⟨ancestor, path, hancestor, hpath, htells⟩ :=
    Reachable.rebase_pathOf reachable_cabinet regular_putNote rfl (by decide) hslip
  cases hancestor
  cases hpath
  exact (htells.of_updated rfl).2

/-- Above an element only the path of an ancestor leads to that ancestor, also once both were read back from
pointers. -/
theorem Sound.front_eq_reread (h : doc.Sound) (hsized : doc.nodes.Indexed) {front back : Path}
    (hpath : doc.pathOf? id = some path) (hancestor : doc.pathOf? top = some ancestor)
    (hsplit : path.reread = front ++ back) (hfront : doc.resolve? front = some top) :
    front = ancestor.reread := by
  rw [Path.reread_eq_map] at hsplit
  obtain ⟨above, below, rfl, rfl, -⟩ := List.map_eq_append_iff.1 hsplit
  have hwalk := h.pathOf?_eq_some_iff.1 hpath
  rw [walk?_append, Option.bind_eq_some_iff] at hwalk
  obtain ⟨other, hother, -⟩ := hwalk
  have hother' := h.pathOf?_eq_some_iff.2 hother
  have hresolve := resolve?_reread hsized (h.resolve?_of_pathOf? hother')
  rw [Path.reread_eq_map, hfront] at hresolve
  cases hresolve
  rw [hancestor] at hother'
  cases hother'
  exact (Path.reread_eq_map ancestor).symm

/-- Read back from pointers, the path of an element rebased leads to it afterwards, unless the change misses
the element: the path is then said to be unchanged although the element is gone. -/
theorem Reachable.rebase_reread {record : Applied} (hdoc : doc.Reachable) (hsized : doc.nodes.Indexed)
    (hregular : edit.change.Regular) (happly : doc.applyEdit edit = .ok (some record, next))
    (hfresh : ∀ new ∈ edit.news, doc.contains new = false) (hid : doc.contains id = true) :
    ∃ ancestor path, doc.pathOf? edit.target = some ancestor ∧ doc.pathOf? id = some path ∧
      doc.resolve? ancestor.reread = some edit.target ∧ doc.resolve? path.reread = some id ∧
      ((∀ step ∈ Path.stepBelow? ancestor.reread path.reread, ¬edit.change.Misses step) →
        (edit.rebase ancestor.reread path.reread).Tells path.reread (next.contains id = true) fun moved =>
          next.resolve? moved = some id) ∧
      ∀ step ∈ Path.stepBelow? ancestor.reread path.reread, edit.change.Misses step →
        edit.rebase ancestor.reread path.reread = .unchanged ∧ next.contains id = false := by
  have h := hdoc.sound
  rcases cases_applyEdit happly with ⟨-, hnone, -⟩ | ⟨node, revision, hacted, -, rfl⟩
  · cases hnone
  have hkeyed := h.keyed hacted.found
  have hplan := (plan_of_revise hkeyed hacted.planned).1
  obtain ⟨ancestor, htarget⟩ := h.exists_walk? (contains_iff.2 ⟨node, hacted.found⟩)
  obtain ⟨path, hwalk⟩ := h.exists_walk? hid
  have hancestor := h.pathOf?_eq_some_iff.2 htarget
  have hpath := h.pathOf?_eq_some_iff.2 hwalk
  have htarget' := resolve?_reread hsized (h.resolve?_of_pathOf? hancestor)
  have hwalk' := resolve?_reread hsized (h.resolve?_of_pathOf? hpath)
  refine ⟨ancestor, path, hancestor, hpath, htarget', hwalk', fun hsees => ?_, fun step hbelow hmisses => ?_⟩
  · have htells := hacted.rebase_tells h hregular child?_descends htarget' hwalk'
      (h.front_eq_reread hsized hpath hancestor)
      fun hbelow hchild => Change.carries_child? hkeyed (h.children hacted.found) hregular.lawful hplan hchild
        (hsees _ hbelow)
    rw [hacted.not_gone_iff h hregular hfresh hid] at htells
    exact htells
  · obtain ⟨hunchanged, hgone⟩ := hacted.rebase_of_misses h htarget' hwalk' hbelow hmisses
    refine ⟨hunchanged, ?_⟩
    rw [← Bool.not_eq_true, ← hacted.not_gone_iff h hregular hfresh hid]
    exact not_not.2 hgone

theorem rebase_reread_slip : ∃ record next, cabinet.applyEdit putNote = .ok (some record, next) ∧
    putNote.rebase (Path.reread [.key "a/~1"]) (Path.reread [.key "a/~1", .index 0]) =
      .updated [.key "a/~1", .index 1] ∧
    next.resolve? [.key "a/~1", .index 1] = some "slip" := by
  have hslip : cabinet.contains "slip" = true := rfl
  refine ⟨_, _, rfl, rfl, ?_⟩
  obtain ⟨ancestor, path, hancestor, hpath, -, -, htells, -⟩ :=
    Reachable.rebase_reread reachable_cabinet indexed_cabinet regular_putNote rfl (by decide) hslip
  cases hancestor
  cases hpath
  exact ((htells fun _ _ hmisses => hmisses).of_updated rfl).2

def clearSeven : Edit := ⟨"cabinet", .object (.remove "7"), false⟩

/-- The pointer to that compartment is read back with an index, which the removal of the key misses. -/
theorem rebase_misses_seven : cabinet.Reachable ∧ clearSeven.change.Legal ∧ clearSeven.news = [] ∧
    ∃ record next, cabinet.applyEdit clearSeven = .ok (some record, next) ∧
      cabinet.pathOf? "cabinet" = some [] ∧ cabinet.pathOf? "seven" = some [.key "7"] ∧
      cabinet.resolve? (Path.reread [.key "7"]) = some "seven" ∧
      clearSeven.rebase (Path.reread []) (Path.reread [.key "7"]) = .unchanged ∧
      next.contains "seven" = false ∧ next.resolve? (Path.reread [.key "7"]) = none :=
  ⟨reachable_cabinet, by decide +kernel, rfl, _, _, rfl, rfl, rfl, rfl, by decide, rfl, rfl⟩

end Document
end CoEdit
