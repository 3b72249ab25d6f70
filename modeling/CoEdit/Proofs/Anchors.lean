import CoEdit.Reference
import CoEdit.Proofs.Document.Runs
import CoEdit.Proofs.Document.Same
import CoEdit.Proofs.Document.Shape

/-!
# References stay valid

A reference is valid for a document if it anchors something that is there. Edits that a document takes are
followed without error, and what is left of a valid reference is valid for the document after them, up to what
was detached on the way (`Reference.Holds.exists_follow_runs`). Pruning by the records then leaves a reference
that is valid outright (`Reachable.valid_prune_follow`), so long as no edit is aimed at what an earlier one
detached.

What an edit of the owner does to its length decides which positions there are; everything else that an edit
can do to the owner is to detach it, and the records say so.
-/
namespace CoEdit

/-! ## Positions -/

namespace Position

/-- Positions up to one length go to positions up to another, and no two of them change their order. -/
structure Fits (shift : Nat → Nat) (before after : Nat) : Prop where
  mono : ∀ p q, p ≤ q → shift p ≤ shift q
  le : ∀ p, p ≤ before → shift p ≤ after

variable {start count length source target p : Nat}

theorem fits_id (length : Nat) : Fits (fun p => p) length length := ⟨fun _ _ => id, fun _ => id⟩

theorem fits_afterInsert (start count length : Nat) :
    Fits (afterInsert start count) length (length + count) where
  mono _ _ := afterInsert_mono start count
  le p hp := by
    unfold afterInsert
    split_ifs <;> omega

theorem fits_afterRemove (h : start + count ≤ length) :
    Fits (afterRemove start count) length (length - count) where
  mono _ _ := afterRemove_mono start count
  le p hp := by
    unfold afterRemove
    split_ifs <;> omega

theorem afterMove_le (hs : source < length) (ht : target < length) (hp : p ≤ length) :
    afterMove source target p ≤ length := by
  rcases Nat.lt_or_ge p length with hlt | hge
  · exact (afterMove_lt hs ht hlt).le
  · unfold afterMove
    dsimp only
    split_ifs <;> omega

end Position

theorem Reorder.follow_le {order : List Nat} (h : isPermutation order = true) {p : Nat}
    (hp : p ≤ order.length) : follow order p ≤ order.length := by
  rcases Nat.lt_or_ge p order.length with hlt | hge
  · exact (follow_lt h hlt).le
  · rw [Nat.le_antisymm hp hge, follow_length]

/-! ## Anchors in a content -/

/-- How many characters or items a content has, if it is a sequence. -/
def Content.length? {α : Type} : Content α → Option Nat
  | .string text => some text.length
  | .array items => some items.length
  | _ => none

namespace Anchors

/-- The anchors are in the content: positions and ranges are no longer than it, a range does not end before
it starts, and there are properties, each of which the content has. -/
inductive Within (content : Content ElementId) : Anchors → Prop
  | positions {length : Nat} {ps : List Nat} (sequence : content.length? = some length)
      (inside : ∀ p ∈ ps, p ≤ length) : Within content (.positions ps)
  | ranges {length : Nat} {rs : List (Nat × Nat)} (sequence : content.length? = some length)
      (inside : ∀ r ∈ rs, r.1 ≤ r.2 ∧ r.2 ≤ length) : Within content (.ranges rs)
  | properties {props : List (String × ElementId)} {names : List String}
      (object : content = .object props) (nonempty : names ≠ [])
      (inside : ∀ name ∈ names, name ∈ Entries.keys props) : Within content (.properties names)

variable {content after : Content ElementId} {anchors : Anchors} {change : Change} {n m : Nat}

theorem checkWithin_eq_ok {length : Nat} {positions : List Nat} (h : ∀ p ∈ positions, p ≤ length) :
    checkWithin length positions = .ok () := by
  have hnone : positions.find? (length < ·) = none :=
    List.find?_eq_none.2 fun p hp => by simpa using h p hp
  rw [checkWithin, hnone]

theorem Within.follow_whole (h : anchors.Within content) (hwhole : change.kind.isWhole = true) :
    follow change anchors = .ok none := by
  cases h <;> simp only [follow, hwhole, if_true]

/-- A change that shifts positions takes anchors along. -/
theorem Within.exists_follow_shift {shift : Nat → Nat} (h : anchors.Within content)
    (hfits : Position.Fits shift n m) (hbefore : content.length? = some n)
    (hafter : after.length? = some m) (hwhole : change.kind.isWhole = false)
    (hpositions : ∀ ps, followPositions change ps = .ok none ∨
      followPositions change ps = .ok (some (ps.map shift)))
    (hranges : ∀ rs, followRanges change rs = .ok (some (rs.map fun r => (shift r.1, shift r.2)))) :
    ∃ moved, follow change anchors = .ok moved ∧ ∀ left ∈ moved, left.Within after := by
  cases h with
  | @positions length ps sequence inside =>
      rw [hbefore] at sequence
      cases sequence
      simp only [follow, hwhole, Bool.false_eq_true, if_false]
      rcases hpositions ps with hnone | hsome
      · exact ⟨none, by rw [hnone]; rfl, nofun⟩
      · refine ⟨some (.positions (ps.map shift)), by rw [hsome]; rfl, ?_⟩
        rintro left ⟨⟩
        exact .positions hafter (List.forall_mem_map.2 fun p hp => hfits.le p (inside p hp))
  | @ranges length rs sequence inside =>
      rw [hbefore] at sequence
      cases sequence
      simp only [follow, hwhole, Bool.false_eq_true, if_false]
      refine ⟨some (.ranges (rs.map fun r => (shift r.1, shift r.2))), by rw [hranges]; rfl, ?_⟩
      rintro left ⟨⟩
      exact .ranges hafter (List.forall_mem_map.2 fun r hr =>
        ⟨hfits.mono _ _ (inside r hr).1, hfits.le _ (inside r hr).2⟩)
  | properties object =>
      rw [object] at hbefore
      cases hbefore

theorem exists_follow_string {text next : String} {c : StringChange}
    (h : anchors.Within (.string text)) (hedit : c.edit? text = some next) :
    ∃ moved, follow (.string c) anchors = .ok moved ∧
      ∀ left ∈ moved, left.Within (.string next) := by
  cases c with
  | insert index piece =>
      obtain ⟨hindex, rfl⟩ := Option.ite_some_none_eq_some.1 hedit
      exact h.exists_follow_shift (Position.fits_afterInsert index piece.length text.length) rfl
        (congrArg some (Text.length_insert hindex)) rfl (fun _ => .inr rfl) fun _ => rfl
  | remove index piece =>
      obtain ⟨hindex, rfl⟩ := Option.ite_some_none_eq_some.1 hedit
      refine h.exists_follow_shift (Position.fits_afterRemove hindex) rfl
        (congrArg some (Text.length_remove hindex)) rfl (fun ps => ?_) fun _ => rfl
      simp only [followPositions]
      split_ifs
      · exact .inl rfl
      · exact .inr rfl
  | set => exact ⟨none, h.follow_whole rfl, nofun⟩

theorem exists_follow_array {items next : List ElementId} {c : ArrayChange} (hlawful : c.Lawful)
    (h : anchors.Within (.array items)) (hedit : c.applied? Element.id items = some next) :
    ∃ moved, follow (.array c) anchors = .ok moved ∧ ∀ left ∈ moved, left.Within (.array next) := by
  cases c with
  | insert index value =>
      obtain ⟨hindex, rfl⟩ := Option.ite_some_none_eq_some.1 hedit
      exact h.exists_follow_shift (Position.fits_afterInsert index 1 items.length) rfl
        (congrArg some (List.length_insertIdx_of_le_length hindex _)) rfl (fun _ => .inr rfl)
        fun _ => rfl
  | remove index =>
      obtain ⟨hindex, rfl⟩ := Option.ite_some_none_eq_some.1 hedit
      exact h.exists_follow_shift (Position.fits_afterRemove hindex) rfl
        (congrArg some (List.length_eraseIdx_of_lt hindex)) rfl (fun _ => .inr rfl) fun _ => rfl
  | replace index value =>
      obtain ⟨-, rfl⟩ := Option.ite_some_none_eq_some.1 hedit
      exact h.exists_follow_shift (Position.fits_id items.length) rfl
        (congrArg some List.length_set) rfl (fun _ => .inr rfl) fun _ => rfl
  | move source target =>
      obtain ⟨⟨hs, ht⟩, rfl⟩ := Option.ite_some_none_eq_some.1 hedit
      cases h with
      | positions sequence inside =>
          cases sequence
          refine ⟨_, rfl, ?_⟩
          rintro left ⟨⟩
          exact .positions (congrArg some (Position.length_relocate hs ht))
            (List.forall_mem_map.2 fun p hp => Position.afterMove_le hs ht (inside p hp))
      | ranges => exact ⟨none, rfl, nofun⟩
      | properties object => cases object
  | reorder order =>
      obtain ⟨hlength, rfl⟩ := Option.ite_some_none_eq_some.1 hedit
      cases h with
      | @positions length ps sequence inside =>
          cases sequence
          rw [← hlength] at inside
          refine ⟨some (.positions (ps.map (Reorder.follow order))), ?_, ?_⟩
          · have hlegal : Reorder.isPermutation order = true := hlawful
            simp only [follow, followPositions, checkWithin_eq_ok inside, Reorder.followAll?, hlegal]
            rfl
          · rintro left ⟨⟩
            refine .positions (congrArg some (Reorder.length_permute fun k hk => ?_))
              (List.forall_mem_map.2 fun p hp => Reorder.follow_le hlawful (inside p hp))
            exact hlength ▸ Reorder.lt_of_mem hlawful hk
      | @ranges length rs sequence inside =>
          cases sequence
          rw [← hlength] at inside
          have hends : ∀ p ∈ rs.map Prod.fst ++ rs.map Prod.snd, p ≤ order.length := by
            simp only [List.forall_mem_append, List.forall_mem_map]
            exact ⟨fun r hr => (inside r hr).1.trans (inside r hr).2, fun r hr => (inside r hr).2⟩
          refine ⟨none, ?_, nofun⟩
          simp only [follow, followRanges, checkWithin_eq_ok hends]
          rfl
      | properties object => cases object
  | set => exact ⟨none, h.follow_whole rfl, nofun⟩

theorem mem_keys_applied? {props next : List (String × ElementId)} {c : ObjectChange} {name : String}
    (hedit : c.applied? Element.id props = some next) (hwhole : (Change.object c).kind.isWhole = false)
    (hname : name ∈ Entries.keys props) (hkept : c ≠ .remove name) : name ∈ Entries.keys next := by
  obtain ⟨p, hp, rfl⟩ := List.mem_map.1 hname
  cases c with
  | add prop value =>
      simp only [ObjectChange.applied?] at hedit
      split_ifs at hedit
      cases hedit
      exact List.mem_map.2 ⟨p, List.mem_append_left _ hp, rfl⟩
  | assign prop value =>
      obtain ⟨-, rfl⟩ := Option.ite_some_none_eq_some.1 hedit
      refine List.mem_map.2 ⟨_, List.mem_map.2 ⟨p, hp, rfl⟩, ?_⟩
      split_ifs with hprop
      · exact hprop.symm
      · rfl
  | remove prop =>
      obtain ⟨-, rfl⟩ := Option.ite_some_none_eq_some.1 hedit
      refine List.mem_map.2 ⟨p, List.mem_filter.2 ⟨hp, ?_⟩, rfl⟩
      rw [decide_eq_true_eq]
      rintro rfl
      exact hkept rfl
  | set => cases hwhole

theorem exists_follow_object {props next : List (String × ElementId)} {c : ObjectChange}
    (h : anchors.Within (.object props)) (hedit : c.applied? Element.id props = some next) :
    ∃ moved, follow (.object c) anchors = .ok moved ∧
      ∀ left ∈ moved, left.Within (.object next) := by
  cases hwhole : (Change.object c).kind.isWhole with
  | true => exact ⟨none, h.follow_whole hwhole, nofun⟩
  | false =>
      cases h with
      | positions sequence => cases sequence
      | ranges sequence => cases sequence
      | @properties _ names object nonempty inside =>
          cases object
          refine ⟨(followProperties (.object c) names).map .properties, ?_, ?_⟩
          · simp only [follow, hwhole, Bool.false_eq_true, if_false]
          · intro left hleft
            obtain ⟨kept, hkept, rfl⟩ := Option.map_eq_some_iff.1 hleft
            have hall : kept ≠ [] ∧ ∀ name ∈ kept, name ∈ names ∧ c ≠ .remove name := by
              cases c with
              | remove prop =>
                  simp only [followProperties] at hkept
                  split_ifs at hkept with hempty
                  cases hkept
                  refine ⟨hempty, fun name hname => ?_⟩
                  simp only [ne_eq, decide_not, List.mem_filter, Bool.not_eq_eq_eq_not, Bool.not_true,
                    decide_eq_false_iff_not] at hname
                  exact ⟨hname.1, fun heq => hname.2 (ObjectChange.remove.inj heq).symm⟩
              | _ =>
                  cases hkept
                  exact ⟨nonempty, fun name hname => ⟨hname, nofun⟩⟩
            exact .properties rfl hall.1 fun name hname =>
              mem_keys_applied? hedit hwhole (inside name (hall.2 name hname).1) (hall.2 name hname).2

/-- Anchors in a content are followed without error when the content is edited, and what is left of them is in
the content after the edit. -/
theorem Within.exists_follow (h : anchors.Within content) (hlawful : change.Lawful)
    (hedit : content.edit? Element.id change = some after) :
    ∃ moved, follow change anchors = .ok moved ∧ ∀ left ∈ moved, left.Within after := by
  cases content with
  | string text =>
      cases change with
      | string c =>
          obtain ⟨next, hnext, rfl⟩ := Option.map_eq_some_iff.1 hedit
          exact exists_follow_string h hnext
      | _ => cases hedit
  | array items =>
      cases change with
      | array c =>
          obtain ⟨next, hnext, rfl⟩ := Option.map_eq_some_iff.1 hedit
          exact exists_follow_array hlawful h hnext
      | _ => cases hedit
  | object props =>
      cases change with
      | object c =>
          obtain ⟨next, hnext, rfl⟩ := Option.map_eq_some_iff.1 hedit
          exact exists_follow_object h hnext
      | _ => cases hedit
  | _ =>
      cases h with
      | positions sequence => cases sequence
      | ranges sequence => cases sequence
      | properties object => cases object

end Anchors

/-! ## References in a document -/

namespace Reference

variable {doc next last : Document} {reference moved kept : Reference} {edit : Edit} {edits : List Edit}
  {record : Option Applied} {records : List Applied} {gone : List ElementId} {answer : ReferenceChange}

/-- Positions, ranges and properties are in an attached owner; anchors at elements have no owner, and there
is at least one, all of them attached. -/
inductive Valid (doc : Document) (reference : Reference) : Prop
  | owned {id : ElementId} {node : Node} (owner : reference.owner = some id)
      (attached : Entries.find? id doc.nodes = some node)
      (within : reference.anchors.Within node.content)
  | elements {ids : List ElementId} (owner : reference.owner = none)
      (anchors : reference.anchors = .elements ids) (nonempty : ids ≠ [])
      (attached : ∀ id ∈ ids, doc.contains id = true)

/-- The reference is valid but for what is gone. -/
inductive Holds (doc : Document) (gone : List ElementId) (reference : Reference) : Prop
  | lost {id : ElementId} (owner : reference.owner = some id) (mem : id ∈ gone)
  | owned {id : ElementId} {node : Node} (owner : reference.owner = some id)
      (attached : Entries.find? id doc.nodes = some node)
      (within : reference.anchors.Within node.content)
  | elements {ids : List ElementId} (owner : reference.owner = none)
      (anchors : reference.anchors = .elements ids)
      (attached : ∀ id ∈ ids, id ∉ gone → doc.contains id = true)

theorem Valid.holds (h : reference.Valid doc) (gone : List ElementId) : reference.Holds doc gone := by
  cases h with
  | owned owner attached within => exact .owned owner attached within
  | elements owner anchors nonempty attached =>
      exact .elements owner anchors fun id hid _ => attached id hid

/-- Pruning by all that is gone leaves only what is valid. -/
theorem Holds.valid_of_prune (h : reference.Holds doc gone)
    (hprune : reference.prune gone = .updated kept) : kept.Valid doc := by
  cases h with
  | lost owner mem =>
      rw [prune, owner, Option.map_some, Option.getD_some, if_pos (List.contains_iff_mem.2 mem)] at hprune
      cases hprune
  | owned owner attached within =>
      have hkept : reference = kept := by
        rcases reference with ⟨_, session, key, anchors⟩
        cases within <;>
          · simp only [prune] at hprune
            split_ifs at hprune
            exact ReferenceChange.updated.inj hprune
      exact hkept ▸ .owned owner attached within
  | @elements ids owner anchors attached =>
      rw [prune, owner, Option.map_none, Option.getD_none, if_neg Bool.false_ne_true, anchors] at hprune
      dsimp only at hprune
      split_ifs at hprune with hempty
      cases hprune
      refine .elements rfl rfl hempty fun id hid => ?_
      obtain ⟨hmem, hstays⟩ := List.mem_filter.1 hid
      exact attached id hmem (by simpa using hstays)

theorem followEdits_of_passed (h : edit.inert = true ∨ reference.owner ≠ some edit.target)
    (rest : List Edit) : reference.followEdits (edit :: rest) = reference.followEdits rest := by
  rw [followEdits, if_pos]
  simpa using h

theorem followEdits_of_aimed (hactive : edit.inert = false) (howner : reference.owner = some edit.target) :
    reference.followEdits [edit] =
      match Anchors.follow edit.change reference.anchors with
      | .error e => .error e
      | .ok none => .ok .obsolete
      | .ok (some anchors) => .ok (.updated { reference with anchors }) := by
  rw [followEdits, if_neg (by simp [hactive, howner])]
  rfl

/-- One edit is followed without error, and what is left holds after it. -/
theorem Holds.exists_follow_applyEdit (h : reference.Holds doc gone) (hdoc : doc.Sound)
    (hregular : edit.change.Regular) (happly : doc.applyEdit edit = .ok (record, next))
    (hforward : edit.inert = false → edit.target ∉ gone) :
    ∃ answer, reference.followEdits [edit] = .ok answer ∧
      ∀ moved, answer = .updated moved →
        moved.Holds next (gone ++ record.toList.flatMap Applied.detached) := by
  have hpassed (hpast : edit.inert = true ∨ reference.owner ≠ some edit.target)
      (hnext : reference.Holds next (gone ++ record.toList.flatMap Applied.detached)) :
      ∃ answer, reference.followEdits [edit] = .ok answer ∧ ∀ moved, answer = .updated moved →
        moved.Holds next (gone ++ record.toList.flatMap Applied.detached) := by
    refine ⟨.updated reference, followEdits_of_passed hpast [], ?_⟩
    rintro moved ⟨⟩
    exact hnext
  cases h with
  | @lost id owner mem =>
      refine hpassed ?_ (.lost owner (List.mem_append_left _ mem))
      cases hinert : edit.inert with
      | true => exact .inl rfl
      | false =>
          rw [owner]
          refine .inr fun heq => hforward hinert ?_
          rwa [← Option.some.inj heq]
  | @elements ids owner anchors attached =>
      refine hpassed (.inr (by simp [owner])) (.elements owner anchors fun id hid hstays => ?_)
      rw [List.mem_append, not_or] at hstays
      refine Document.contains_of_applyEdit hdoc hregular happly (attached id hid hstays.1) ?_
      intro done hdone hmem
      exact hstays.2 (List.mem_flatMap.2 ⟨done, Option.mem_toList.2 hdone, hmem⟩)
  | @owned id node owner attached within =>
      rcases Document.cases_applyEdit happly with
        ⟨hidle, -, rfl⟩ | ⟨found, revision, hacted, rfl, rfl⟩
      · refine hpassed (hidle.imp_right fun habsent heq => ?_) (.owned owner attached within)
        rw [owner] at heq
        cases heq
        rw [Document.not_contains_iff, attached] at habsent
        cases habsent
      · have g := hacted.grafts hdoc hregular
        by_cases hid : id = edit.target
        · subst hid
          obtain rfl : node = found := Option.some.inj (attached.symm.trans hacted.found)
          have hcontent := (hacted.plan hdoc).1
          obtain ⟨left, hfollow, hleft⟩ := within.exists_follow hregular.lawful hcontent
          rw [followEdits_of_aimed hacted.active owner, hfollow]
          cases left with
          | none =>
              refine ⟨_, rfl, ?_⟩
              rintro moved ⟨⟩
          | some anchors =>
              refine ⟨_, rfl, ?_⟩
              rintro moved ⟨⟩
              exact .owned owner (hacted.find?_target hdoc hregular) (hleft anchors rfl)
        · refine hpassed (.inr fun heq => hid (Option.some.inj (owner.symm.trans heq))) ?_
          by_cases hgone : id ∈ revision.removed.flatMap fun child => (doc.subtree child).ids
          · refine .lost owner (List.mem_append_right _ ?_)
            exact List.mem_flatMap.2 ⟨_, List.mem_singleton.2 rfl, hgone⟩
          · obtain ⟨after, hafter, hsame⟩ := g.find?_of_stays attached hgone
            obtain rfl := hsame (Ne.symm hid)
            exact .owned owner hafter within

/-- A run of edits is followed without error, and what is left holds after it, so long as no edit is aimed at
what is gone by then. -/
theorem Holds.exists_follow_runs (h : reference.Holds doc gone) (hdoc : doc.Sound)
    (hregular : ∀ edit ∈ edits, edit.change.Regular) (hruns : doc.Runs edits records last)
    (hforward : ∀ front edit back before mid, edits = front ++ edit :: back →
      doc.Runs front before mid → edit.inert = false →
        edit.target ∉ gone ++ before.flatMap Applied.detached) :
    ∃ answer, reference.followEdits edits = .ok answer ∧
      ∀ moved, answer = .updated moved →
        moved.Holds last (gone ++ records.flatMap Applied.detached) := by
  induction hruns generalizing reference gone with
  | nil doc =>
      refine ⟨.updated reference, rfl, ?_⟩
      rintro moved ⟨⟩
      rwa [List.flatMap_nil, List.append_nil]
  | @cons doc next last edit edits record records taken rest ih =>
      rw [List.forall_mem_cons] at hregular
      obtain ⟨answer, hanswer, hholds⟩ := h.exists_follow_applyEdit hdoc hregular.1 taken
        fun hinert => by simpa using hforward [] edit edits [] doc rfl (.nil doc) hinert
      rw [← List.singleton_append, followEdits_append, hanswer, List.flatMap_append]
      cases answer with
      | obsolete => exact ⟨.obsolete, rfl, nofun⟩
      | updated moved =>
          rw [← List.append_assoc]
          refine ih (hholds moved rfl) (hdoc.applyEdit hregular.1 taken) hregular.2 ?_
          rintro front other back before mid rfl hfront hinert
          have htarget := hforward (edit :: front) other back _ mid rfl (.cons taken hfront) hinert
          rwa [List.flatMap_append, ← List.append_assoc] at htarget

end Reference

namespace Document

variable {doc next : Document} {reference : Reference} {operation : Operation} {records : List Applied}

/-- A valid reference is followed without error through an operation that is taken, and pruned by all that the
operation detached it is valid for the document after it, so long as no edit is aimed at what an earlier one
detached. -/
theorem Reachable.valid_prune_follow (hdoc : doc.Reachable) (hvalid : reference.Valid doc)
    (hregular : ∀ edit ∈ operation.edits, edit.change.Regular)
    (happly : doc.apply operation = (.ok records, next))
    (hforward : ∀ front edit back before mid, operation.edits = front ++ edit :: back →
      doc.apply (.compound front) = (.ok before, mid) → edit.inert = false →
        edit.target ∉ before.flatMap Applied.detached) :
    (∃ answer, reference.follow operation = .ok answer) ∧
      ∀ moved kept, reference.follow operation = .ok (.updated moved) →
        moved.prune (records.flatMap Applied.detached) = .updated kept → kept.Valid next := by
  obtain ⟨answer, hanswer, hholds⟩ := (hvalid.holds []).exists_follow_runs hdoc.sound hregular
    (apply_eq_ok_iff.1 happly) fun front edit back before mid hsplit hfront hinert => by
      rw [List.nil_append]
      exact hforward front edit back before mid hsplit (apply_eq_ok_iff.2 hfront) hinert
  refine ⟨⟨answer, hanswer⟩, fun moved kept hfollow hprune => ?_⟩
  rw [Reference.follow, hanswer] at hfollow
  exact (hholds moved (Except.ok.inj hfollow)).valid_of_prune hprune

/-- A cursor in front of the only row and one behind it. -/
def rowCursors : Reference where
  owner := some "rows"
  session := "session"
  key := "cursors"
  anchors := .positions [0, 1]

/-- Adds a row behind the only one, puts it in front and removes the title. -/
def raiseNewRow : Operation :=
  .compound [
    ⟨"rows", .array (.insert 1 (.mk "extra" .null)), false⟩,
    ⟨"rows", .array (.move 1 0), false⟩,
    ⟨"sheet", .object (.remove "title"), false⟩]

theorem valid_prune_follow_sheet : ∃ records next kept,
    sheet.apply raiseNewRow = (.ok records, next) ∧
      rowCursors.follow raiseNewRow = .ok (.updated kept) ∧
      kept.prune (records.flatMap Applied.detached) = .updated kept ∧ kept.Valid next := by
  have hattached : Entries.find? "rows" sheet.nodes = some ⟨some "sheet", .array ["row"]⟩ := rfl
  have hwithin : Anchors.Within (.array ["row"]) (.positions [0, 1]) := .positions rfl (by decide)
  have hvalid : rowCursors.Valid sheet := .owned rfl hattached hwithin
  have hregular : ∀ edit ∈ raiseNewRow.edits, edit.change.Regular := fun edit hedit =>
    ((by decide +kernel : ∀ edit ∈ raiseNewRow.edits, edit.change.Legal) edit hedit).regular
  obtain ⟨hfollow, hkept⟩ := Reachable.valid_prune_follow reachable_sheet hvalid hregular rfl
    fun front edit back before mid hsplit hfront _ => by
      -- nothing is detached before the last edit
      have hbefore : before.flatMap Applied.detached = [] := by
        rcases front with _ | ⟨a, _ | ⟨b, _ | ⟨c, front⟩⟩⟩
        case cons.cons.cons => simp [raiseNewRow, Operation.edits] at hsplit
        all_goals
          cases hsplit
          cases hfront
          rfl
      rw [hbefore]
      exact List.not_mem_nil
  exact ⟨_, _, _, rfl, rfl, rfl, hkept _ _ rfl rfl⟩

end Document
end CoEdit
