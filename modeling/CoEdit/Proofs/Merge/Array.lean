import CoEdit.Proofs.Merge.Precedence
import CoEdit.Proofs.Confluence.Leaving

/-!
# Merged arrays

Two changes to one array, made at the same time and reconciled, lose nothing and put nothing in twice
(`Reachable.array_merges`): an item stays unless one of the two takes it out, and what the two bring along is
there, but of two replacements of one item only the first. Items that no change moves keep their order; a
reorder decides about the order of all items, the first one if there are two.

Both orders lead to one array, so whatever is said of it may be read off either one. An item that a change
takes out is missing behind the other change as well, and items keep their order behind a change that moves
nothing, whichever order shows it more easily.
-/
namespace CoEdit

theorem sublist_of_subset {α : Type} {kept rest items : List α} (hnodup : items.Nodup)
    (hkept : kept.Sublist items) (hrest : rest.Sublist items) (h : kept ⊆ rest) : kept.Sublist rest := by
  induction items generalizing kept rest with
  | nil =>
      rw [List.sublist_nil.1 hkept]
      exact List.nil_sublist rest
  | cons x items ih =>
      obtain ⟨hx, hnodup⟩ := List.nodup_cons.1 hnodup
      cases hrest with
      | cons _ hrest =>
          cases hkept with
          | cons _ hkept => exact ih hnodup hkept hrest h
          | cons_cons _ hkept => exact absurd (hrest.subset (h List.mem_cons_self)) hx
      | cons_cons _ hrest =>
          rename_i rest
          cases hkept with
          | cons _ hkept =>
              refine (ih hnodup hkept hrest fun y hy => ?_).cons x
              refine (List.mem_cons.1 (h hy)).resolve_left ?_
              rintro rfl
              exact hx (hkept.subset hy)
          | cons_cons _ hkept =>
              refine (ih hnodup hkept hrest fun y hy => ?_).cons_cons x
              refine (List.mem_cons.1 (h (List.mem_cons_of_mem x hy))).resolve_left ?_
              rintro rfl
              exact hx (hkept.subset hy)

namespace ArrayChange

variable {α : Type} {arrive : Element → α} {items after : List α} {c d : ArrayChange}

/-! ## What a change does to the items -/

/-- The items that a change takes out or replaces. -/
def taken (items : List α) (c : ArrayChange) : List α :=
  (Content.array items).leaving (.array c)

/-- The items that a change moves. -/
def carried (items : List α) : ArrayChange → List α
  | .move source _ => items[source]?.toList
  | _ => []

/-- The order in which a change puts all items. -/
def order? : ArrayChange → Option (List Nat)
  | .reorder order => some order
  | _ => none

/-- Both changes replace one item. -/
def Clash : ArrayChange → ArrayChange → Prop
  | .replace i _, .replace j _ => i = j
  | _, _ => False

theorem Clash.symm (h : Clash c d) : Clash d c := by
  cases c <;> cases d <;> first | exact Eq.symm h | cases h

/-- A change puts items in and takes them out without a change to the order of the others. -/
def Still : ArrayChange → Prop
  | .insert .. | .remove _ | .replace .. => True
  | _ => False

/-- The items that a change neither takes out nor moves stay as they are among themselves. -/
theorem exists_rest (horder : c.order? = none) (hset : ∀ values, c ≠ .set values)
    (h : c.applied? arrive items = some after) : ∃ rest : List α, rest.Sublist items ∧
      rest.Sublist after ∧ items.Perm (c.taken items ++ c.carried items ++ rest) := by
  cases c with
  | insert index value =>
      obtain ⟨hindex, hafter⟩ := Option.ite_none_right_eq_some.1 h
      cases hafter
      exact ⟨items, .refl _, List.sublist_insertIdx _ _ _, .refl _⟩
  | remove index =>
      obtain ⟨hindex, hafter⟩ := Option.ite_none_right_eq_some.1 h
      cases hafter
      refine ⟨items.eraseIdx index, List.eraseIdx_sublist _ _, .refl _, ?_⟩
      rw [taken, Content.leaving, List.getElem?_eq_getElem hindex]
      exact (List.getElem_cons_eraseIdx_perm hindex).symm
  | replace index value =>
      obtain ⟨hindex, hafter⟩ := Option.ite_none_right_eq_some.1 h
      cases hafter
      refine ⟨items.eraseIdx index, List.eraseIdx_sublist _ _, ?_, ?_⟩
      · rw [← List.eraseIdx_set_eq]
        exact List.eraseIdx_sublist _ _
      · rw [taken, Content.leaving, List.getElem?_eq_getElem hindex]
        exact (List.getElem_cons_eraseIdx_perm hindex).symm
  | move source target =>
      obtain ⟨⟨hsource, htarget⟩, hafter⟩ := Option.ite_none_right_eq_some.1 h
      cases hafter
      refine ⟨items.eraseIdx source, List.eraseIdx_sublist _ _, ?_, ?_⟩
      · rw [Position.relocate_eq (List.getElem?_eq_getElem hsource)]
        exact List.sublist_insertIdx _ _ _
      · rw [carried, List.getElem?_eq_getElem hsource]
        exact (List.getElem_cons_eraseIdx_perm hsource).symm
  | reorder order => cases horder
  | set values => exact absurd rfl (hset values)

/-- Items that a change neither takes out nor moves keep their order. -/
theorem sublist_applied? {kept : List α} (horder : c.order? = none) (hset : ∀ values, c ≠ .set values)
    (hnodup : items.Nodup) (h : c.applied? arrive items = some after) (hkept : kept.Sublist items)
    (hstay : ∀ x ∈ kept, x ∉ c.taken items ∧ x ∉ c.carried items) : kept.Sublist after := by
  obtain ⟨rest, hrest, hrest', hperm⟩ := exists_rest horder hset h
  refine (sublist_of_subset hnodup hkept hrest fun x hx => ?_).trans hrest'
  have hmem := hperm.subset (hkept.subset hx)
  simp only [List.mem_append] at hmem
  have hx := hstay x hx
  tauto

/-! ## What is left of a change -/

/-- The index of the item that a change takes out or replaces. -/
def spot? : ArrayChange → Option Nat
  | .remove index => some index
  | .replace index _ => some index
  | _ => none

/-- What is left of a change behind another one takes an item out only if the change does, and then not the
one that the other side took out, unless both replace it. It moves nothing if the change moves nothing, or
if the other one reorders. -/
structure Trails (change other left : ArrayChange) : Prop where
  limited : ∀ values, left ≠ .set values
  spot : left.spot?.isSome → change.spot?.isSome ∧ (change.spot? = other.spot? → Clash change other)
  still : change.Still ∨ change.order? = none ∧ other.order?.isSome → left.Still

theorem isSome_spot?_of_kind {left : ArrayChange} (h : left.kind = c.kind) :
    left.spot?.isSome = c.spot?.isSome := by
  cases left <;> cases c <;> first | rfl | cases h

theorem still_of_kind {left : ArrayChange} (h : left.kind = c.kind) (hc : c.Still) : left.Still := by
  cases c <;> cases hc <;> cases left <;> trivial

theorem trails_of_kind {change other left : ArrayChange} (hset : change.kind ≠ .arraySet)
    (hkind : left.kind = change.kind)
    (hspot : change.spot?.isSome → change.spot? = other.spot? → Clash change other)
    (hstill : change.order? = none → other.order?.isSome → change.Still) :
    Trails change other left where
  limited := by
    rintro values rfl
    exact hset hkind.symm
  spot h := by
    rw [isSome_spot?_of_kind hkind] at h
    exact ⟨h, hspot h⟩
  still h := still_of_kind hkind (h.elim id fun h => hstill h.1 h.2)

/-- The one exception: a replacement of an item that the other side takes out puts its value in anew. -/
theorem trails_removeReplace {i j : Nat} {next : Element} :
    (removeReplace i j next).Keeps (Trails (.remove i) (.replace j next))
      (Trails (.replace j next) (.remove i)) := by
  unfold removeReplace
  split_ifs with hlt heq
  · exact Reconciled.keeps_both (trails_of_kind nofun rfl (fun _ h => by cases h; omega) nofun)
      (trails_of_kind nofun rfl (fun _ h => by cases h; omega) nofun)
  · exact Reconciled.keeps_secondOnly ⟨nofun, nofun, fun _ => trivial⟩
  · exact Reconciled.keeps_both (trails_of_kind nofun rfl (fun _ h => by cases h; omega) nofun)
      (trails_of_kind nofun rfl (fun _ h => by cases h; omega) nofun)

theorem trails_transform (hc : ∀ values, c ≠ .set values) (hd : ∀ values, d ≠ .set values) :
    (c.transform d).Keeps (Trails c d) (Trails d c) := by
  cases c with
  | set values => exact absurd rfl (hc values)
  | _ =>
      cases d with
      | set values => exact absurd rfl (hd values)
      | _ =>
          simp only [transform, insertRemove, insertReplace, insertReorder, removeReorder,
            replaceReorder, moveReorder, reorderReorder]
          try split_ifs
          all_goals
            first
            | exact trails_removeReplace
            | exact trails_removeReplace.swap
            | exact Reconciled.keeps_error _
            | exact Reconciled.keeps_neither
            | refine Reconciled.keeps_firstOnly (trails_of_kind (by rintro ⟨⟩) rfl ?_ ?_)
            | refine Reconciled.keeps_secondOnly (trails_of_kind (by rintro ⟨⟩) rfl ?_ ?_)
            | refine Reconciled.keeps_firstWins (trails_of_kind (by rintro ⟨⟩) rfl ?_ ?_)
            | refine Reconciled.keeps_both (trails_of_kind (by rintro ⟨⟩) rfl ?_ ?_)
                (trails_of_kind (by rintro ⟨⟩) rfl ?_ ?_)
          -- what is left to show is about the two changes only, not about what the rule made of them
          all_goals
            intro hthis hother
            first
            | trivial
            | (cases hthis; done)
            | (cases hother; done)
            | (cases hother; first | exact rfl | omega)

theorem not_clash_of_becomes : (c.transform d).Keeps (fun _ => True) fun _ => ¬Clash c d := by
  by_cases hclash : Clash c d
  · cases c <;> cases d <;> cases hclash
    simp only [transform]
    rw [if_neg (by simp)]
    exact Reconciled.keeps_firstWins trivial
  · intro first second _
    exact ⟨by cases first <;> trivial, by cases second <;> first | exact hclash | trivial⟩

theorem covers_payload (hc : ∀ values, c ≠ .set values) (hd : ∀ values, d ≠ .set values)
    (hdiffer : ∀ v ∈ c.payload, ∀ w ∈ d.payload, (v == w) = false) :
    (c.transform d).Covers (c.payload = []) (d.payload = [] ∨ Clash c d) := by
  by_cases hclash : Clash c d
  · cases c <;> cases d <;> cases hclash
    simp only [transform]
    rw [if_neg (by simp), hdiffer _ List.mem_cons_self _ List.mem_cons_self]
    exact Reconciled.covers_firstOnly _ (.inr rfl)
  · cases c with
    | set values => exact absurd rfl (hc values)
    | _ =>
        cases d with
        | set values => exact absurd rfl (hd values)
        | _ =>
            simp only [transform, insertRemove, insertReplace, removeReplace, insertReorder,
              replaceReorder]
            try split_ifs
            all_goals
              first
              | exact Reconciled.covers_of _ rfl (.inl rfl)
              | exact Reconciled.covers_error _
              | exact Reconciled.covers_both _ _
              | exact Reconciled.covers_secondOnly _ rfl
              | exact Reconciled.covers_firstOnly _ (.inl rfl)
              | exact absurd (not_not.1 ‹_›) hclash

/-! ## The merged array -/

theorem taken_of_spot? {index : Nat} (h : c.spot? = some index) :
    c.taken items = items[index]?.toList := by
  cases c <;> cases h <;> rfl

theorem taken_eq_nil (hset : ∀ values, c ≠ .set values) (h : c.spot? = none) :
    c.taken items = [] := by
  cases c with
  | set values => exact absurd rfl (hset values)
  | _ => first | rfl | cases h

theorem mem_applied? (hlawful : c.Lawful) (hnodup : items.Nodup)
    (h : c.applied? arrive items = some after) (x : α) :
    x ∈ after ↔ x ∈ items ∧ x ∉ c.taken items ∨ x ∈ c.payload.map arrive := by
  obtain ⟨kept, hitems, hafter⟩ := exists_kept hlawful h
  have hnodup' := hitems.nodup_iff.1 hnodup
  have hkept : x ∈ kept ↔ x ∈ items ∧ x ∉ c.taken items := by
    rw [hitems.mem_iff, List.mem_append]
    constructor
    · exact fun hx => ⟨.inr hx, fun htaken => (List.nodup_append.1 hnodup').2.2 x htaken x hx rfl⟩
    · exact fun hx => hx.1.resolve_left hx.2
  rw [hafter.mem_iff, List.mem_append, hkept]

theorem nodup_applied? (hlawful : c.Lawful) (hnodup : (items ++ c.payload.map arrive).Nodup)
    (h : c.applied? arrive items = some after) : after.Nodup := by
  obtain ⟨kept, hitems, hafter⟩ := exists_kept hlawful h
  rw [hafter.nodup_iff]
  refine ((hitems.append_right _).nodup_iff.1 hnodup).sublist ?_
  exact (List.sublist_append_right _ _).append_right _

theorem exists_taken {index : Nat} (hspot : c.spot? = some index)
    (h : c.applied? arrive items = some after) :
    ∃ x, items[index]? = some x ∧ c.taken items = [x] := by
  have hlt : index < items.length := by
    cases c <;> cases hspot <;> exact (Option.ite_none_right_eq_some.1 h).1
  refine ⟨items[index], List.getElem?_eq_getElem hlt, ?_⟩
  rw [taken_of_spot? hspot, List.getElem?_eq_getElem hlt]
  rfl

variable {items after after' merged : List Element} {first second : Outcome ArrayChange}

/-- What a pair of changes to the array `items` comes to: `merged` has every item that neither takes out and
every element that the two bring along, but the second side's not where both replace one item. Items that
keep their place do so in the order that they had, or in the one that a reorder dictates. -/
structure Merged (items : List Element) (c d : ArrayChange) (merged : List Element) : Prop where
  nodup : (merged.map Element.id).Nodup
  mem_iff : ∀ x, x ∈ merged ↔ x ∈ items ∧ x ∉ c.taken items ∧ x ∉ d.taken items ∨
    x ∈ c.payload ∨ x ∈ d.payload ∧ ¬Clash c d
  steady : c.order? = none → d.order? = none → ∀ kept : List Element, kept.Sublist items →
    (∀ x ∈ kept, x ∉ c.taken items ∧ x ∉ d.taken items ∧
      x ∉ c.carried items ∧ x ∉ d.carried items) → kept.Sublist merged
  reordered : ∀ order, c.order?.or d.order? = some order → ∀ kept : List Element,
    kept.Sublist (Reorder.permute order items) →
    (∀ x ∈ kept, x ∉ c.taken items ∧ x ∉ d.taken items) → kept.Sublist merged

/-- One order of two changes to the array `items`: `c` leads to `after`, and what is left of `d` leads on to
`merged`. All elements differ. -/
structure Route (items : List Element) (c d : ArrayChange) (left : Outcome ArrayChange)
    (after merged : List Element) : Prop where
  lawful : c.Lawful
  rebased : left.All (Rebased d)
  nodup : (items ++ (c.payload ++ d.payload)).Nodup
  edit : c.applied? (fun value => value) items = some after
  follow : left.follow (applied? fun value => value) after = some merged

namespace Route

variable {left : Outcome ArrayChange} (h : Route items c d left after merged) {x : Element}
include h

theorem mem_after : x ∈ after ↔ x ∈ items ∧ x ∉ c.taken items ∨ x ∈ c.payload := by
  have hmem := mem_applied? h.lawful (List.nodup_append.1 h.nodup).1 h.edit x
  rwa [List.map_id'] at hmem

theorem nodup_after : (after ++ d.payload).Nodup := by
  have hnodup := h.nodup
  rw [← List.append_assoc, List.nodup_append] at hnodup
  refine List.nodup_append.2 ⟨?_, hnodup.2.1, fun x hx y hy => hnodup.2.2 x ?_ y hy⟩
  · refine nodup_applied? h.lawful ?_ h.edit
    rw [List.map_id']
    exact hnodup.1
  · rw [List.mem_append]
    exact (h.mem_after.1 hx).imp And.left id

theorem mem_merged {change : ArrayChange} (hleft : left = .becomes change) :
    x ∈ merged ↔ x ∈ after ∧ x ∉ change.taken after ∨ x ∈ d.payload := by
  subst hleft
  have hmem := mem_applied? h.rebased.lawful (List.nodup_append.1 h.nodup_after).1 h.follow x
  rwa [List.map_id', h.rebased.payload] at hmem

theorem eq_after (hleft : left = .dropped) : merged = after := by
  subst hleft
  exact (Option.some.inj h.follow).symm

theorem mem_of_mem_merged (hx : x ∈ merged) :
    x ∈ items ∧ x ∉ c.taken items ∨ x ∈ c.payload ∨ x ∈ d.payload := by
  cases hleft : left with
  | dropped =>
      rw [h.eq_after hleft, h.mem_after] at hx
      exact hx.imp id .inl
  | becomes change =>
      rw [h.mem_merged hleft, h.mem_after] at hx
      tauto

theorem merged_subset : merged ⊆ items ++ (c.payload ++ d.payload) := by
  intro x hx
  have hmem := h.mem_of_mem_merged hx
  simp only [List.mem_append]
  tauto

theorem nodup_merged : merged.Nodup := by
  cases hleft : left with
  | dropped =>
      rw [h.eq_after hleft]
      exact (List.nodup_append.1 h.nodup_after).1
  | becomes change =>
      subst hleft
      refine nodup_applied? h.rebased.lawful ?_ h.follow
      rw [List.map_id', h.rebased.payload]
      exact h.nodup_after

theorem sublist_merged {kept : List Element} (hstill : left.All Still) (hkept : kept.Sublist after)
    (hstay : kept ⊆ merged) : kept.Sublist merged := by
  cases hleft : left with
  | dropped =>
      rw [h.eq_after hleft]
      exact hkept
  | becomes change =>
      have hmem {x : Element} (hx : x ∈ kept) : x ∉ change.taken after := by
        have hmerged := (h.mem_merged hleft).1 (hstay hx)
        refine (hmerged.resolve_right fun hpayload => ?_).2
        exact (List.nodup_append.1 h.nodup_after).2.2 x (hkept.subset hx) x hpayload rfl
      subst hleft
      refine sublist_applied? ?_ ?_ (List.nodup_append.1 h.nodup_after).1 h.follow hkept fun x hx =>
        ⟨hmem hx, ?_⟩
      · cases change <;> first | rfl | cases hstill
      · rintro values rfl
        cases hstill
      · cases change <;> first | exact List.not_mem_nil | cases hstill

end Route

variable (hleft : Route items c d second after merged) (hright : Route items d c first after' merged)
include hleft hright

theorem not_mem_taken {x : Element} (hx : x ∈ items) (hmerged : x ∈ merged) :
    x ∉ c.taken items ∧ x ∉ d.taken items := by
  have hapart : ∀ v ∈ c.payload ++ d.payload, x ≠ v := (List.nodup_append.1 hleft.nodup).2.2 x hx
  have hfirst : x ∉ c.payload := fun hv => hapart x (List.mem_append_left _ hv) rfl
  have hsecond : x ∉ d.payload := fun hv => hapart x (List.mem_append_right _ hv) rfl
  have hway := hleft.mem_of_mem_merged hmerged
  have hway' := hright.mem_of_mem_merged hmerged
  tauto

variable (hc : ∀ values, c ≠ .set values) (hd : ∀ values, d ≠ .set values)
  (hrule : c.transform d = .ok (first, second))
include hc hd hrule

theorem payload_subset {x : Element} (hdiffer : ∀ v ∈ c.payload, ∀ w ∈ d.payload, (v == w) = false)
    (hx : x ∈ c.payload ∨ x ∈ d.payload ∧ ¬Clash c d) :
    x ∈ merged := by
  obtain ⟨hcovers, hcovers'⟩ := covers_payload hc hd hdiffer _ _ hrule
  rcases hx with hx | ⟨hx, hclash⟩
  · cases hfirst : first with
    | becomes change => exact (hright.mem_merged hfirst).2 (.inr hx)
    | dropped =>
        rw [hcovers hfirst] at hx
        cases hx
  · cases hsecond : second with
    | becomes change => exact (hleft.mem_merged hsecond).2 (.inr hx)
    | dropped =>
        rw [(hcovers' hsecond).resolve_right hclash] at hx
        cases hx

omit hd hrule in
theorem exists_taken_alone {change : ArrayChange} (htrails : Trails d c change) (hclash : ¬Clash c d)
    (hspot : change.spot?.isSome) : ∃ y ∈ items, d.taken items = [y] ∧ y ∉ c.taken items := by
  obtain ⟨hsome, happart⟩ := htrails.spot hspot
  obtain ⟨index, hindex⟩ := Option.isSome_iff_exists.1 hsome
  obtain ⟨y, hy, htaken⟩ := exists_taken hindex hright.edit
  refine ⟨y, List.mem_of_getElem? hy, htaken, fun hmem => ?_⟩
  cases hother : c.spot? with
  | none =>
      rw [taken_eq_nil hc hother] at hmem
      cases hmem
  | some other =>
      rw [taken_of_spot? hother, Option.mem_toList] at hmem
      have heq : other = index := (List.getElem?_inj (List.getElem?_eq_some_iff.1 hmem).1
        (List.nodup_append.1 hleft.nodup).1).1 (hmem.trans hy.symm)
      exact hclash (happart (by rw [hindex, hother, heq])).symm

/-- What neither change takes out is still there. What is left of the second one takes out one item at
most, and that is the item that the second one takes out itself. -/
theorem mem_merged_of_not_taken {x : Element} (hx : x ∈ items) (hfirst : x ∉ c.taken items)
    (hsecond : x ∉ d.taken items) : x ∈ merged := by
  have hafter : x ∈ after := hleft.mem_after.2 (.inl ⟨hx, hfirst⟩)
  cases hleaves : second with
  | dropped => rwa [hleft.eq_after hleaves]
  | becomes change =>
      have htrails := (trails_transform hc hd _ _ hrule).2
      have hclash := (not_clash_of_becomes _ _ hrule).2
      have hfollow := hleft.follow
      rw [hleaves] at htrails hclash hfollow
      have htaken {y : Element} (hy : y ∈ after) (hgone : y ∉ merged) : y ∈ change.taken after := by
        by_contra hnot
        exact hgone ((hleft.mem_merged hleaves).2 (.inl ⟨hy, hnot⟩))
      by_contra hgone
      obtain ⟨spot, hspot⟩ : ∃ spot, change.spot? = some spot := by
        rw [← Option.ne_none_iff_exists']
        intro hnone
        have hnil := htaken hafter hgone
        rw [taken_eq_nil htrails.limited hnone] at hnil
        cases hnil
      obtain ⟨y, hy, hyTaken, hyFirst⟩ :=
        exists_taken_alone hleft hright hc htrails hclash (by rw [hspot]; rfl)
      have hyAfter : y ∈ after := hleft.mem_after.2 (.inl ⟨hy, hyFirst⟩)
      have hyGone : y ∉ merged := fun hmem =>
        (not_mem_taken hleft hright hy hmem).2 (by rw [hyTaken]; exact List.mem_cons_self)
      -- `x` and `y` are both the one item that is left to take out
      obtain ⟨w, -, hw⟩ := exists_taken hspot hfollow
      have hxw := htaken hafter hgone
      have hyw := htaken hyAfter hyGone
      rw [hw, List.mem_singleton] at hxw hyw
      exact hsecond (by rw [hyTaken, hxw, hyw]; exact List.mem_cons_self)

omit hright hc hd in
theorem sublist_of_moves {kept : List Element} {source target source' target' : Nat}
    (hfirst : c = .move source target) (hsecond : d = .move source' target')
    (hkept : kept.Sublist after) (hstay : ∀ x ∈ kept, x ∉ d.carried items) : kept.Sublist merged := by
  subst hfirst hsecond
  obtain ⟨⟨hs, ht⟩, hafter⟩ := Option.ite_none_right_eq_some.1 hleft.edit
  cases hafter
  by_cases hne : source = source'
  · have hdropped : second = .dropped := by
      simp only [transform, if_pos hne] at hrule
      split_ifs at hrule <;> cases hrule <;> rfl
    rwa [hleft.eq_after hdropped]
  · rw [transform_move_move target target' hne] at hrule
    cases hrule
    have hitem := Position.getElem?_relocate (p := source') hs ht
    have hfollow : (ArrayChange.move (Position.afterMove source target source')
        (moveMove source target source' target').2.2).applied? (fun value => value)
          (Position.relocate source target items) = some merged := hleft.follow
    refine sublist_applied? rfl (by simp) (List.nodup_append.1 hleft.nodup_after).1 hfollow hkept
      fun x hx => ⟨List.not_mem_nil, ?_⟩
    rw [carried, hitem]
    exact hstay x hx

theorem sublist_of_steady {kept : List Element} (horder : c.order? = none) (horder' : d.order? = none)
    (hkept : kept.Sublist items) (hstay : ∀ x ∈ kept, x ∉ c.taken items ∧ x ∉ d.taken items ∧
      x ∉ c.carried items ∧ x ∉ d.carried items) : kept.Sublist merged := by
  have hnodup := (List.nodup_append.1 hleft.nodup).1
  have hafter : kept.Sublist after := sublist_applied? horder hc hnodup hleft.edit hkept
    fun x hx => ⟨(hstay x hx).1, (hstay x hx).2.2.1⟩
  have hafter' : kept.Sublist after' := sublist_applied? horder' hd hnodup hright.edit hkept
    fun x hx => ⟨(hstay x hx).2.1, (hstay x hx).2.2.2⟩
  have hsub : kept ⊆ merged := fun x hx =>
    mem_merged_of_not_taken hleft hright hc hd hrule (hkept.subset hx) (hstay x hx).1 (hstay x hx).2.1
  obtain ⟨htrails, htrails'⟩ := trails_transform hc hd _ _ hrule
  by_cases hstill : c.Still
  · exact hright.sublist_merged (htrails.imp fun _ h => h.still (.inl hstill)) hafter' hsub
  by_cases hstill' : d.Still
  · exact hleft.sublist_merged (htrails'.imp fun _ h => h.still (.inl hstill')) hafter hsub
  have hmoves {change : ArrayChange} (horder : change.order? = none)
      (hset : ∀ values, change ≠ .set values) (hstill : ¬change.Still) :
      ∃ source target, change = .move source target := by
    cases change with
    | move source target => exact ⟨source, target, rfl⟩
    | reorder order => cases horder
    | set values => exact absurd rfl (hset values)
    | _ => exact absurd trivial hstill
  obtain ⟨source, target, hfirst⟩ := hmoves horder hc hstill
  obtain ⟨source', target', hsecond⟩ := hmoves horder' hd hstill'
  exact sublist_of_moves hleft hrule hfirst hsecond hafter fun x hx => (hstay x hx).2.2.2

omit hleft hright hc hd in
/-- Of two reorders nothing is left of the second. -/
theorem dropped_of_reorders (hfirst : c.order?.isSome) (hsecond : d.order?.isSome) :
    second = .dropped := by
  cases c <;> cases hfirst
  cases d <;> cases hsecond
  simp only [transform, reorderReorder] at hrule
  split_ifs at hrule <;> cases hrule <;> rfl

/-- A reorder decides about the order of all items that stay, the first one if there are two. -/
theorem sublist_of_reordered {kept : List Element} {order : List Nat}
    (horder : c.order?.or d.order? = some order) (hkept : kept.Sublist (Reorder.permute order items))
    (hstay : ∀ x ∈ kept, x ∉ c.taken items ∧ x ∉ d.taken items) : kept.Sublist merged := by
  have hpermuted {change : ArrayChange} {result : List Element} (h : change.order? = some order)
      (hedit : change.applied? (fun value => value) items = some result) :
      result = Reorder.permute order items := by
    cases change <;> cases h
    exact (Option.some.inj (Option.ite_none_right_eq_some.1 hedit).2).symm
  have hsub : kept ⊆ merged := by
    intro x hx
    obtain ⟨k, -, hk⟩ := List.mem_filterMap.1 (hkept.subset hx)
    exact mem_merged_of_not_taken hleft hright hc hd hrule (List.mem_of_getElem? hk) (hstay x hx).1
      (hstay x hx).2
  obtain ⟨htrails, htrails'⟩ := trails_transform hc hd _ _ hrule
  cases hfirst : c.order? with
  | some first =>
      obtain rfl : first = order := by simpa [hfirst] using horder
      rw [← hpermuted hfirst hleft.edit] at hkept
      refine hleft.sublist_merged ?_ hkept hsub
      cases hsecond : d.order? with
      | some other =>
          rw [dropped_of_reorders hrule (by simp [hfirst]) (by simp [hsecond])]
          trivial
      | none => exact htrails'.imp fun _ h => h.still (.inr ⟨hsecond, by simp [hfirst]⟩)
  | none =>
      have hsecond : d.order? = some order := by simpa [hfirst] using horder
      rw [← hpermuted hsecond hright.edit] at hkept
      exact hright.sublist_merged (htrails.imp fun _ h => h.still (.inr ⟨hfirst, by simp [hsecond]⟩))
        hkept hsub

/-- Whatever two changes of one array that differ in what they bring along are reconciled, they lose nothing
and put nothing in twice. -/
theorem merged_of_routes (hdiffer : ∀ v ∈ c.payload, ∀ w ∈ d.payload, (v == w) = false)
    (hids : ((items ++ (c.payload ++ d.payload)).map Element.id).Nodup) : Merged items c d merged where
  nodup := by
    have hpool := hleft.merged_subset
    exact List.Nodup.map_on
      (fun x hx y hy h => List.inj_on_of_nodup_map hids (hpool hx) (hpool hy) h) hleft.nodup_merged
  mem_iff x := by
    constructor
    · intro hx
      rcases hleft.mem_of_mem_merged hx with ⟨hmem, -⟩ | hfirst | hsecond
      · exact .inl ⟨hmem, not_mem_taken hleft hright hmem hx⟩
      · exact .inr (.inl hfirst)
      · refine .inr (.inr ⟨hsecond, ?_⟩)
        cases hleaves : second with
        | becomes change =>
            have hclash := (not_clash_of_becomes _ _ hrule).2
            rwa [hleaves] at hclash
        | dropped =>
            rw [hleft.eq_after hleaves] at hx
            exact absurd rfl ((List.nodup_append.1 hleft.nodup_after).2.2 x hx x hsecond)
    · rintro (⟨hx, hfirst, hsecond⟩ | hx)
      · exact mem_merged_of_not_taken hleft hright hc hd hrule hx hfirst hsecond
      · exact payload_subset hleft hright hc hd hrule hdiffer hx
  steady := fun horder horder' kept hkept hstay =>
    sublist_of_steady hleft hright hc hd hrule horder horder' hkept hstay
  reordered := fun order horder kept hkept hstay =>
    sublist_of_reordered hleft hright hc hd hrule horder hkept hstay

end ArrayChange

/-! ## In a document -/

namespace Document
open ArrayChange

variable {doc first second : Document} {a b : Edit} {c d : ArrayChange} {items : List Element}

/-- Two edits of one array that do not exchange it as a whole can be reconciled, and in either order they
lose nothing and put nothing in twice. -/
theorem Reachable.array_merges (hdoc : doc.Reachable) (h : doc.Meet a b first second)
    (ha : a.change = .array c) (hb : b.change = .array d) (hc : ∀ values, c ≠ .set values)
    (hd : ∀ values, d ≠ .set values) (hitems : .mk a.target (.array items) ∈ doc.snapshot.preorder) :
    ∃ a' b' merged, doc.Merges a b a' b' first second (.array items) (.array merged) (.array merged) ∧
      Merged items c d merged := by
  have hlawful : (Change.array c).Lawful := ha ▸ h.regular.lawful
  have hlawful' : (Change.array d).Lawful := hb ▸ h.regular'.lawful
  have hids := h.nodup_with_children hdoc.sound hitems
  rw [ha, hb] at hids
  have hnodup : (items ++ (c.payload ++ d.payload)).Nodup := hids.of_map
  have hdiffer : ∀ v ∈ c.payload, ∀ w ∈ d.payload, (v == w) = false := fun v hv w hw =>
    h.not_agrees_of_mem_payload (by rwa [ha]) (by rwa [hb])
  obtain ⟨m⟩ := h.exists_meeting hdoc.sound Facet.array ha hb hitems
  obtain ⟨hkeeps, hkeeps'⟩ := keeps_transform hlawful hlawful' _ _ m.rule
  have hleft : Route items c d m.outcome' m.after m.merged :=
    ⟨hlawful, hkeeps', hnodup, m.edit, m.follow⟩
  have hright : Route items d c m.outcome m.after' m.merged' :=
    ⟨hlawful', hkeeps, hnodup.perm (List.perm_append_comm.append_left _), m.edit', m.follow'⟩
  -- elements of one id are one element, so the two orders do not only lead to the same ids
  have hpool := hleft.merged_subset
  have hpool' := List.Subset.trans hright.merged_subset (List.perm_append_comm.append_left items).subset
  have hsame : m.merged' = m.merged := Content.array.inj <|
    Content.eq_of_map_eq (congrArg Content.array (m.ids_eq hlawful hlawful')) fun x hx y hy heq =>
      List.inj_on_of_nodup_map hids (hpool' hx) (hpool hy) heq
  have hmerges := m.merges
  rw [hsame] at hright hmerges
  exact ⟨_, _, m.merged, hmerges, merged_of_routes hleft hright hc hd m.rule hdiffer hids⟩

def replaceFront : Edit :=
  ⟨"list", .array (.replace 0 (.mk "item" (.string "c"))), false⟩

def turnAround : Edit :=
  ⟨"list", .array (.reorder [1, 0]), false⟩

/-- Beside the reorder the replacement takes its item out, wherever that went, and nothing else. -/
theorem array_merges_listOfTwo : ∃ first second a' b' items merged,
    listOfTwo.Merges replaceFront turnAround a' b' first second (.array items) (.array merged)
      (.array merged) ∧
    .mk "item" (.string "c") ∈ merged ∧ .mk "back" (.string "b") ∈ merged ∧
    .mk "front" (.string "a") ∉ merged := by
  have hmeet : ∃ first second, listOfTwo.Meet replaceFront turnAround first second :=
    ⟨_, _, rfl, (by decide : replaceFront.change.Legal).regular,
      (by decide : turnAround.change.Legal).regular, by decide, by decide, ⟨_, rfl⟩, ⟨_, rfl⟩⟩
  obtain ⟨first, second, hmeet⟩ := hmeet
  have hitems : .mk "list" (.array [.mk "front" (.string "a"), .mk "back" (.string "b")]) ∈
      listOfTwo.snapshot.preorder := .head _
  obtain ⟨a', b', merged, hmerges, hmerged⟩ :=
    Reachable.array_merges reachable_listOfTwo hmeet rfl rfl (by simp) (by simp) hitems
  refine ⟨first, second, a', b', _, merged, hmerges, ?_, ?_, ?_⟩
  · exact (hmerged.mem_iff _).2 (.inr (.inl List.mem_cons_self))
  · exact (hmerged.mem_iff _).2 (.inl (by simp [taken, Content.leaving]))
  · intro hmem
    have hcases := (hmerged.mem_iff _).1 hmem
    simp [taken, Content.leaving, payload] at hcases

end Document
end CoEdit
