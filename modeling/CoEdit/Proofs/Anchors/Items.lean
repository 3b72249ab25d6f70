import CoEdit.Proofs.Anchors
import CoEdit.Proofs.Path.Rebase

/-!
# Positions follow the items of an array

A reference to positions in an array is moved by the changes alone; the array and its items are never looked
at. Still each position goes where its item goes, through any number of edits
(`Reachable.positions_follow_items`). An item that goes away on the way leaves the other positions where their
items are, and its own somewhere in the array, so it can be moved on. Only an edit that sets the whole array
makes the reference obsolete.

For one change this is what the change says of the steps of paths (`ArrayChange.carries`). Along a run it is
carried with the list of what is gone by then (`Followed`).
-/
namespace CoEdit

/-! ## One change -/

namespace ArrayChange

variable {c : ArrayChange} {items rest : List ElementId} {child : ElementId} {p : Nat} {ps : List Nat}

/-- Where a change moves positions, if it does not set all items. -/
def shift : ArrayChange → Nat → Nat
  | .insert index _ => Position.afterInsert index 1
  | .remove index => Position.afterRemove index 1
  | .move source target => Position.afterMove source target
  | .reorder order => Reorder.follow order
  | .replace .. | .set _ => fun p => p

theorem followItem?_eq_shift {k : Nat} (h : c.followItem? p = some k) : k = c.shift p := by
  cases c with
  | remove index => exact (Option.some.inj (Option.ite_none_left_eq_some.1 h).2).symm
  | replace index value => exact (Option.some.inj (Option.ite_none_left_eq_some.1 h).2).symm
  | set values => cases h
  | _ =>
      cases h
      rfl

theorem getElem?_shift (hlawful : c.Lawful) (hnodup : items.Nodup)
    (happlied : c.applied? Element.id items = some rest) (hp : items[p]? = some child)
    (hstays : child ∉ (Content.array items).leaving (.array c)) : rest[c.shift p]? = some child := by
  have hcarries := carries hlawful hnodup happlied hp
  cases hnext : (Change.array c).followStep? (.index p) with
  | none =>
      rw [Change.Carries, hnext] at hcarries
      exact absurd hcarries hstays
  | some next =>
      obtain ⟨-, hread⟩ := (Change.carries_iff hnext).1 hcarries
      have hindex : (c.followItem? p).map Path.Step.index = some next := by
        cases c <;> exact hnext
      obtain ⟨k, hk, rfl⟩ := Option.map_eq_some_iff.1 hindex
      rw [← followItem?_eq_shift hk]
      exact hread

/-- Positions in the array are all moved by the same map. -/
theorem follow_positions (hlawful : c.Lawful) (hkind : c.kind ≠ .arraySet)
    (happlied : c.applied? Element.id items = some rest) (hinside : ∀ p ∈ ps, p ≤ items.length) :
    Anchors.follow (.array c) (.positions ps) = .ok (some (.positions (ps.map c.shift))) := by
  cases c with
  | reorder order =>
      obtain ⟨hlength, -⟩ := Option.ite_none_right_eq_some.1 happlied
      have hlegal : Reorder.isPermutation order = true := hlawful
      have hwithin := Anchors.checkWithin_eq_ok (hlength ▸ hinside)
      change (Anchors.followPositions (.array (.reorder order)) ps).map (Option.map Anchors.positions) = _
      simp only [Anchors.followPositions, hwithin, Reorder.followAll?, if_pos hlegal]
      rfl
  | set values => exact absurd rfl hkind
  | _ => rfl

theorem shift_le (hlawful : c.Lawful) (hkind : c.kind ≠ .arraySet)
    (happlied : c.applied? Element.id items = some rest) (hp : p ≤ items.length) :
    c.shift p ≤ rest.length := by
  have hinside : ∀ q ∈ [p], q ≤ items.length := by simpa using hp
  obtain ⟨moved, hmoved, hleft⟩ :=
    Anchors.exists_follow_array hlawful (.positions rfl hinside) happlied
  rw [follow_positions hlawful hkind happlied hinside] at hmoved
  cases hmoved
  cases hleft _ rfl with
  | positions sequence inside =>
      cases sequence
      exact inside _ List.mem_cons_self

end ArrayChange

/-- Positions `qs` in the array `after` follow positions `ps` in the array `before`: none is past the end, and
each is that of the item at the old position, unless this item is gone. -/
def Followed (gone before after : List ElementId) (ps qs : List Nat) : Prop :=
  List.Forall₂ (fun p q => q ≤ after.length ∧
    ∀ id, before[p]? = some id → id ∈ gone ∨ after[q]? = some id) ps qs

namespace Followed

variable {gone before items rest : List ElementId} {ps qs : List Nat}

theorem refl (h : ∀ p ∈ ps, p < items.length) : Followed [] items items ps ps :=
  List.forall₂_same.2 fun p hp => ⟨(h p hp).le, fun _ hid => .inr hid⟩

theorem inside (h : Followed gone before items ps qs) : ∀ q ∈ qs, q ≤ items.length := by
  induction h with
  | nil => exact nofun
  | cons head tail ih => exact List.forall_mem_cons.2 ⟨head.1, ih⟩

theorem attached {present : ElementId → Prop} (h : Followed gone before items ps qs)
    (hgone : ∀ id ∈ gone, ¬present id) : List.Forall₂
      (fun p q => ∀ id, before[p]? = some id → present id → items[q]? = some id) ps qs :=
  h.imp fun _ _ hpq id hid hpresent => (hpq.2 id hid).resolve_left fun hmem => hgone id hmem hpresent

theorem applied {c : ArrayChange} {out : List ElementId} (h : Followed gone before items ps qs)
    (hlawful : c.Lawful) (hnodup : items.Nodup) (hkind : c.kind ≠ .arraySet)
    (happlied : c.applied? Element.id items = some rest)
    (hout : (Content.array items).leaving (.array c) ⊆ out) :
    Followed (gone ++ out) before rest ps (qs.map c.shift) := by
  rw [Followed, List.forall₂_map_right_iff]
  refine h.imp fun p q hpq => ⟨c.shift_le hlawful hkind happlied hpq.1, fun id hid => ?_⟩
  rcases hpq.2 id hid with hgone | hitem
  · exact .inl (List.mem_append_left out hgone)
  · by_cases hleaves : id ∈ (Content.array items).leaving (.array c)
    · exact .inl (List.mem_append_right gone (hout hleaves))
    · exact .inr (c.getElem?_shift hlawful hnodup happlied hitem hleaves)

theorem mono {out : List ElementId} (h : Followed gone before items ps qs) :
    Followed (gone ++ out) before items ps qs :=
  h.imp fun _ _ hpq => ⟨hpq.1, fun id hid => (hpq.2 id hid).imp_left (List.mem_append_left out)⟩

end Followed

/-! ## Edits and runs -/

/-- The edit is in force and sets all items of the array. -/
def Edit.Overwrites (id : ElementId) (edit : Edit) : Prop :=
  edit.inert = false ∧ edit.target = id ∧ edit.kind = .arraySet

instance (id : ElementId) (edit : Edit) : Decidable (edit.Overwrites id) :=
  inferInstanceAs (Decidable (edit.inert = false ∧ edit.target = id ∧ edit.kind = .arraySet))

/-- No edit brings along what it or an earlier one detached. -/
def Unreturned (records : List Applied) : Prop :=
  (∀ record ∈ records, ∀ id ∈ record.detached, id ∉ record.edit.news) ∧
    records.Pairwise fun earlier later => ∀ id ∈ earlier.detached, id ∉ later.edit.news

theorem Unreturned.tail {record : Applied} {records : List Applied} (h : Unreturned (record :: records)) :
    Unreturned records :=
  ⟨(List.forall_mem_cons.1 h.1).2, (List.pairwise_cons.1 h.2).2⟩

namespace Reference

def withPositions (reference : Reference) (positions : List Nat) : Reference :=
  { reference with anchors := .positions positions }

@[simp] theorem anchors_withPositions (reference : Reference) (positions : List Nat) :
    (reference.withPositions positions).anchors = .positions positions := rfl

/-- What becomes of the reference with positions `qs` in the array `owner` through `edits`, which lead to the
document `next`. It is obsolete if an edit sets all items. If none does, it gets positions that follow `ps`
up to what is gone by then. -/
structure Carried (reference : Reference) (owner : ElementId) (parent : Option ElementId)
    (edits : List Edit) (next : Document) (gone before : List ElementId) (ps qs : List Nat) : Prop where
  set : (∃ edit ∈ edits, edit.Overwrites owner) →
    (reference.withPositions qs).followEdits edits = .ok .obsolete
  kept : (∀ edit ∈ edits, ¬edit.Overwrites owner) → ∃ moved after,
    (reference.withPositions qs).followEdits edits = .ok (.updated (reference.withPositions moved)) ∧
      Entries.find? owner next.nodes = some ⟨parent, .array after⟩ ∧
      Followed gone before after ps moved

variable {reference : Reference} {owner : ElementId} {parent : Option ElementId} {edit : Edit}
  {next : Document} {gone before items : List ElementId} {ps qs : List Nat}

theorem carried_of_passed (hpast : edit.inert = true ∨ owner ≠ edit.target)
    (howner : reference.owner = some owner)
    (hnext : Entries.find? owner next.nodes = some ⟨parent, .array items⟩)
    (hfollowed : Followed gone before items ps qs) :
    reference.Carried owner parent [edit] next gone before ps qs := by
  constructor
  · rintro ⟨other, hother, hactive, htarget, -⟩
    rw [List.mem_singleton.1 hother] at hactive htarget
    rcases hpast with hinert | hne
    · cases hinert.symm.trans hactive
    · exact absurd htarget.symm hne
  · intro _
    refine ⟨qs, items, followEdits_of_passed (hpast.imp_right fun hne heq => hne ?_) [], hnext, hfollowed⟩
    exact Option.some.inj (howner.symm.trans heq)

/-- An edit of an array takes the positions in it along, unless it sets all items. -/
theorem carried_of_applied {c : ArrayChange} {rest out : List ElementId} (hactive : edit.inert = false)
    (howner : reference.owner = some edit.target) (hchange : edit.change = .array c) (hlawful : c.Lawful)
    (hnodup : items.Nodup) (happlied : c.applied? Element.id items = some rest)
    (hout : (Content.array items).leaving (.array c) ⊆ out)
    (hnext : Entries.find? edit.target next.nodes = some ⟨parent, .array rest⟩)
    (hfollowed : Followed gone before items ps qs) :
    reference.Carried edit.target parent [edit] next (gone ++ out) before ps qs := by
  have hfollow : (reference.withPositions qs).followEdits [edit] = _ :=
    followEdits_of_aimed hactive howner
  rw [hchange, anchors_withPositions] at hfollow
  have hkind : edit.kind = c.kind := congrArg Change.kind hchange
  constructor
  · rintro ⟨other, hother, hset⟩
    rw [List.mem_singleton.1 hother] at hset
    rw [hfollow, Anchors.follow, if_pos]
    change c.kind.isWhole = true
    rw [← hkind, hset.2.2]
    rfl
  · intro hkept
    have hitems : c.kind ≠ .arraySet := fun hset =>
      hkept edit List.mem_cons_self ⟨hactive, rfl, hkind.trans hset⟩
    refine ⟨qs.map c.shift, rest, ?_, hnext, hfollowed.applied hlawful hnodup hitems happlied hout⟩
    rw [hfollow, c.follow_positions hlawful hitems happlied hfollowed.inside]
    rfl

end Reference

namespace Document

variable {doc next last : Document} {edit : Edit} {edits : List Edit} {record : Option Applied}
  {records : List Applied} {reference : Reference} {owner id : ElementId} {parent : Option ElementId}
  {gone before items : List ElementId} {ps qs : List Nat}

theorem edit_of_applyEdit {done : Applied} (h : doc.applyEdit edit = .ok (some done, next)) :
    done.edit = edit := by
  rcases cases_applyEdit h with ⟨-, hnone, -⟩ | ⟨node, revision, -, hsome, -⟩
  · cases hnone
  · cases hsome
    rfl

theorem not_contains_of_detached {done : Applied} (hdoc : doc.Sound) (hregular : edit.change.Regular)
    (h : doc.applyEdit edit = .ok (some done, next)) (hid : id ∈ done.detached)
    (hnot : id ∉ edit.news) : next.contains id ≠ true := by
  rcases cases_applyEdit h with ⟨-, hnone, -⟩ | ⟨node, revision, hacted, hsome, rfl⟩
  · cases hnone
  · cases hsome
    rw [Ne, hacted.contains_revised_iff hdoc hregular]
    rintro (hnews | ⟨-, hstays⟩)
    · exact hnot hnews
    · exact hstays (((hacted.grafts hdoc hregular).mem_detached id).1 hid)

theorem Runs.not_contains (h : doc.Runs edits records last) (hdoc : doc.Sound)
    (hregular : ∀ edit ∈ edits, edit.change.Regular) (hid : doc.contains id ≠ true)
    (hnot : ∀ record ∈ records, id ∉ record.edit.news) : last.contains id ≠ true := by
  induction h with
  | nil doc => exact hid
  | @cons doc next last edit edits record records taken rest ih =>
      rw [List.forall_mem_cons] at hregular
      refine ih (hdoc.applyEdit hregular.1 taken) hregular.2 (fun hnext => ?_)
        fun other hother => hnot other (List.mem_append_right _ hother)
      cases record with
      | none =>
          rcases cases_applyEdit taken with ⟨-, -, rfl⟩ | ⟨node, revision, -, hsome, -⟩
          · exact hid hnext
          · cases hsome
      | some done =>
          refine (gains_of_applyEdit hdoc hregular.1 taken id hnext).elim hid ?_
          rw [← edit_of_applyEdit taken]
          exact hnot done List.mem_cons_self

theorem Runs.not_contains_detached (h : doc.Runs edits records last) (hdoc : doc.Sound)
    (hregular : ∀ edit ∈ edits, edit.change.Regular) (hback : Unreturned records) :
    ∀ id ∈ records.flatMap Applied.detached, last.contains id ≠ true := by
  induction h with
  | nil doc => exact nofun
  | @cons doc next last edit edits record records taken rest ih =>
      rw [List.forall_mem_cons] at hregular
      have hnext := hdoc.applyEdit hregular.1 taken
      cases record with
      | none => exact ih hnext hregular.2 hback
      | some done =>
          intro id hid
          rcases List.mem_append.1 (List.flatMap_cons ▸ hid) with hhead | htail
          · have hnot := hback.1 done List.mem_cons_self id hhead
            rw [edit_of_applyEdit taken] at hnot
            exact rest.not_contains hnext hregular.2
              (not_contains_of_detached hdoc hregular.1 taken hhead hnot)
              fun later hlater => (List.pairwise_cons.1 hback.2).1 later hlater id hhead
          · exact ih hnext hregular.2 hback.tail id htail

/-- An edit takes positions along with the items, unless it sets all items. What it takes out of the array is
on its record, and an edit that is aimed elsewhere leaves the array as it is. -/
theorem Sound.carried_applyEdit (hdoc : doc.Sound) (hregular : edit.change.Regular)
    (happly : doc.applyEdit edit = .ok (record, next)) (howner : reference.owner = some owner)
    (hnode : Entries.find? owner doc.nodes = some ⟨parent, .array items⟩)
    (hfollowed : Followed gone before items ps qs)
    (hstays : owner ∉ record.toList.flatMap Applied.detached) :
    reference.Carried owner parent [edit] next (gone ++ record.toList.flatMap Applied.detached) before
      ps qs := by
  rcases cases_applyEdit happly with ⟨hidle, -, rfl⟩ | ⟨node, revision, hacted, rfl, rfl⟩
  · refine Reference.carried_of_passed (hidle.imp_right ?_) howner hnode hfollowed.mono
    rintro habsent rfl
    rw [not_contains_iff, hnode] at habsent
    cases habsent
  · have g := hacted.grafts hdoc hregular
    rw [Option.toList_some, List.flatMap_singleton] at hstays ⊢
    by_cases hid : owner = edit.target
    · subst hid
      obtain rfl := Option.some.inj (hnode.symm.trans hacted.found)
      obtain ⟨hcontent, hremoved, -⟩ := hacted.plan hdoc
      have hlawful := hregular.lawful
      have hnodup : items.Nodup := hdoc.children hnode
      have htarget := hacted.find?_target hdoc hregular
      cases hchange : edit.change with
      | array c =>
          rw [hchange] at hcontent hremoved hlawful
          obtain ⟨after, hafter, hsame⟩ := Option.map_eq_some_iff.1 hcontent
          rw [← hsame] at htarget
          refine Reference.carried_of_applied hacted.active howner hchange hlawful hnodup hafter ?_
            htarget hfollowed
          intro child hchild
          rw [← hremoved] at hchild
          obtain ⟨content, hfound⟩ := hdoc.listed hnode (g.taken child hchild)
          exact (g.mem_detached child).2 ⟨child, hchild, hdoc.under_self hfound⟩
      | _ =>
          rw [hchange] at hcontent
          cases hcontent
    · obtain ⟨after, hafter, hsame⟩ := g.find?_of_stays hnode hstays
      obtain rfl := hsame (Ne.symm hid)
      exact Reference.carried_of_passed (.inr hid) howner hafter hfollowed.mono

/-- A run of edits takes positions along with the items, unless one of them sets all items. -/
theorem Runs.carried (h : doc.Runs edits records last) (hdoc : doc.Sound)
    (hregular : ∀ edit ∈ edits, edit.change.Regular) (howner : reference.owner = some owner)
    (hnode : Entries.find? owner doc.nodes = some ⟨parent, .array items⟩)
    (hfollowed : Followed gone before items ps qs)
    (hstays : owner ∉ records.flatMap Applied.detached) :
    reference.Carried owner parent edits last (gone ++ records.flatMap Applied.detached) before ps qs := by
  induction h generalizing gone items qs with
  | nil doc =>
      refine ⟨by simp, fun _ => ⟨qs, items, rfl, hnode, ?_⟩⟩
      rwa [List.flatMap_nil, List.append_nil]
  | @cons doc next last edit edits record records taken rest ih =>
      rw [List.forall_mem_cons] at hregular
      rw [List.flatMap_append, List.mem_append, not_or] at hstays
      have hfirst := hdoc.carried_applyEdit hregular.1 taken howner hnode hfollowed hstays.1
      have hnext := hdoc.applyEdit hregular.1 taken
      rw [List.flatMap_append, ← List.append_assoc]
      by_cases hover : edit.Overwrites owner
      · -- nothing is left of the reference, whatever comes afterwards
        refine ⟨fun _ => ?_, fun hnone => absurd hover (hnone edit List.mem_cons_self)⟩
        rw [← List.singleton_append, Reference.followEdits_append,
          hfirst.set ⟨edit, List.mem_cons_self, hover⟩]
      · obtain ⟨moved, after, hmoved, hafter, hthere⟩ := hfirst.kept (by simpa using hover)
        have hlater := ih hnext hregular.2 hafter hthere hstays.2
        have hsplit : (reference.withPositions qs).followEdits (edit :: edits) =
            (reference.withPositions moved).followEdits edits := by
          rw [← List.singleton_append, Reference.followEdits_append, hmoved]
        refine ⟨fun hset => hsplit.trans (hlater.set ?_), fun hnone => ?_⟩
        · exact ((List.exists_mem_cons_iff ..).1 hset).resolve_left hover
        · rw [hsplit]
          exact hlater.kept (List.forall_mem_cons.1 hnone).2

/-- Positions in an array follow their items through every operation that is taken and neither detaches the
array nor brings back what it detached. Unless an edit sets all items, there is a new position for each old
one, in order, and an item that is still attached stands at the new position if it stood at the old one. If an
edit sets all items, the reference is obsolete. -/
theorem Reachable.positions_follow_items {operation : Operation} (hdoc : doc.Reachable)
    (hregular : ∀ edit ∈ operation.edits, edit.change.Regular)
    (happly : doc.apply operation = (.ok records, next))
    (hnode : Entries.find? owner doc.nodes = some ⟨parent, .array items⟩)
    (howner : reference.owner = some owner) (hanchors : reference.anchors = .positions ps)
    (hinside : ∀ p ∈ ps, p < items.length) (hstays : owner ∉ records.flatMap Applied.detached)
    (hback : Unreturned records) :
    ((∀ edit ∈ operation.edits, ¬edit.Overwrites owner) → ∃ moved after,
        reference.follow operation = .ok (.updated { reference with anchors := .positions moved }) ∧
          Entries.find? owner next.nodes = some ⟨parent, .array after⟩ ∧
          List.Forall₂ (fun p q => ∀ id, items[p]? = some id → next.contains id = true →
            after[q]? = some id) ps moved) ∧
      ((∃ edit ∈ operation.edits, edit.Overwrites owner) →
        reference.follow operation = .ok .obsolete) := by
  have hruns := apply_eq_ok_iff.1 happly
  have hsame : reference.withPositions ps = reference := by
    rw [Reference.withPositions, ← hanchors]
  obtain ⟨hset, hkept⟩ := hruns.carried hdoc.sound hregular howner hnode (.refl hinside) hstays
  rw [hsame] at hset hkept
  refine ⟨fun hnone => ?_, hset⟩
  obtain ⟨moved, after, hmoved, hafter, hfollowed⟩ := hkept hnone
  exact ⟨moved, after, hmoved, hafter,
    hfollowed.attached (hruns.not_contains_detached hdoc.sound hregular hback)⟩

/-- Puts another row in front, takes out the one that was added last and lets the first two change places. -/
def turnRows : Operation :=
  .compound [
    ⟨"rows", .array (.insert 0 (.mk "first" (.array [.mk "cell" .null]))), false⟩,
    ⟨"rows", .array (.remove 1), false⟩,
    ⟨"first", .array (.set []), false⟩,
    ⟨"rows", .array (.move 1 0), false⟩]

/-- One of the two rows goes, and the cursor in front of the other one stays in front of it. -/
theorem positions_follow_turnRows : ∃ records next,
    (sheet.apply raiseNewRow).2.apply turnRows = (.ok records, next) ∧
      rowCursors.follow turnRows = .ok (.updated { rowCursors with anchors := .positions [0, 0] }) ∧
      Entries.find? "rows" next.nodes = some ⟨some "sheet", .array ["row", "first"]⟩ ∧
      List.Forall₂ (fun p q => ∀ id, ["extra", "row"][p]? = some id → next.contains id = true →
        ["row", "first"][q]? = some id) [0, 1] [0, 0] := by
  have hraised : (sheet.apply raiseNewRow).2.Reachable := .apply reachable_sheet fun edit hedit =>
    ((by decide +kernel : ∀ edit ∈ raiseNewRow.edits, edit.change.Legal) edit hedit).regular
  have hregular : ∀ edit ∈ turnRows.edits, edit.change.Regular := fun edit hedit =>
    ((by decide +kernel : ∀ edit ∈ turnRows.edits, edit.change.Legal) edit hedit).regular
  have howner : rowCursors.owner = some "rows" := rfl
  obtain ⟨hkept, -⟩ := Reachable.positions_follow_items hraised hregular rfl rfl howner rfl
    (by decide) (by decide) ⟨by decide, by decide⟩
  obtain ⟨moved, after, hmoved, hafter, hfollowed⟩ := hkept (by decide)
  cases hmoved.symm.trans rfl
  cases hafter.symm.trans rfl
  exact ⟨_, _, rfl, hmoved, hafter, hfollowed⟩

end Document
end CoEdit
