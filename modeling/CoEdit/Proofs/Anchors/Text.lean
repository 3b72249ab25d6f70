import CoEdit.Proofs.Anchors
import CoEdit.Proofs.Merge.Text

/-!
# Cursors and selections follow their text

A cursor stands at a gap of a text and a selection goes from one gap to another. An insertion or removal takes
them along (`Reachable.text_anchors_follow`): what stood behind a cursor stands behind it afterwards if the
change was in front of it, and what stood in front of it if the change was behind it. Only a cursor strictly
inside what is removed is lost, and all others of its reference with it. A selection is never lost: it selects
what the change has left of it, and the text that was put in between its ends or at its last one.

All of it follows from one fact. The new text is put together character by character (`selected`), and what is
put together up to a gap is as long as the map of positions says (`length_selected`). So the map cuts the new
text just where the gap cut the old one.
-/
namespace CoEdit

namespace Text

theorem weave_eq_flatMap (piece : Nat → List Char) (gone : Nat → Bool) (text : List Char) :
    weave piece gone text = piece 0 ++ (List.range text.length).flatMap fun k =>
      (if gone k then [] else text[k]?.toList) ++ piece (k + 1) := by
  induction text generalizing piece gone with
  | nil => simp [weave]
  | cons x rest ih =>
      rw [weave, ih, List.length_cons, List.range_succ_eq_map, List.flatMap_cons, List.flatMap_map]
      simp only [List.append_assoc, List.getElem?_cons_zero, List.getElem?_cons_succ, Option.toList_some,
        Nat.succ_eq_add_one, Nat.zero_add]

theorem flatMap_range'_getElem? {α : Type} (text : List α) (start count : Nat) :
    (List.range' start count).flatMap (fun k => text[k]?.toList) = (text.drop start).take count := by
  induction count generalizing start with
  | zero => simp
  | succ count ih =>
      rw [List.range'_succ, List.flatMap_cons, ih]
      rcases lt_or_ge start text.length with hlt | hge
      · rw [List.drop_eq_getElem_cons hlt, List.take_succ_cons, List.getElem?_eq_getElem hlt]
        rfl
      · rw [List.getElem?_eq_none hge, List.drop_eq_nil_of_le hge,
          List.drop_eq_nil_of_le (hge.trans (Nat.le_succ start))]
        simp

end Text

namespace StringChange
open Position

variable {c : StringChange} {text after : String} {start stop p : Nat}

/-- What a change leaves of the characters from `start` up to `stop`: each of them, unless it takes it out, and
behind it what it puts in there. -/
def selected (c : StringChange) (start stop : Nat) (text : List Char) : List Char :=
  (List.range' start (stop - start)).flatMap fun k =>
    (if c.takes k then [] else text[k]?.toList) ++ c.puts (k + 1)

/-- Where a change moves positions, if it does not set the whole text. -/
def shift : StringChange → Nat → Nat
  | .insert index piece => afterInsert index piece.length
  | .remove index piece => afterRemove index piece.length
  | .set _ => fun p => p

/-- Whether a change puts its text in at a gap or in front of it, or takes out what ends there or in front. -/
def precedes (gap : Nat) : StringChange → Bool
  | .insert index _ => decide (index ≤ gap)
  | .remove index piece => decide (index + piece.length ≤ gap)
  | .set _ => false

/-- Whether a change puts its text in behind a gap, or takes out what starts there or behind. -/
def succeeds (gap : Nat) : StringChange → Bool
  | .insert index _ => decide (gap < index)
  | .remove index _ => decide (gap ≤ index)
  | .set _ => false

theorem untouched_of_precedes {k : Nat} (h : c.precedes p = true) (hk : p ≤ k) :
    c.takes k = false ∧ c.puts (k + 1) = [] := by
  cases c with
  | insert index piece =>
      have hindex : index ≤ p := of_decide_eq_true h
      exact ⟨rfl, if_neg (by omega)⟩
  | remove index piece =>
      have hend : index + piece.length ≤ p := of_decide_eq_true h
      exact ⟨decide_eq_false (by omega), rfl⟩
  | set next => cases h

theorem untouched_of_succeeds (h : c.succeeds p = true) :
    c.puts 0 = [] ∧ ∀ k, k < p → c.takes k = false ∧ c.puts (k + 1) = [] := by
  cases c with
  | insert index piece =>
      have hindex : p < index := of_decide_eq_true h
      exact ⟨if_neg (by omega), fun k hk => ⟨rfl, if_neg (by omega)⟩⟩
  | remove index piece =>
      have hstart : p ≤ index := of_decide_eq_true h
      exact ⟨rfl, fun k hk => ⟨decide_eq_false (by omega), rfl⟩⟩
  | set next => cases h

theorem selected_self (chars : List Char) : c.selected p p chars = [] := by
  rw [selected, Nat.sub_self, List.range'_zero, List.flatMap_nil]

theorem selected_succ (chars : List Char) :
    c.selected p (p + 1) chars = (if c.takes p then [] else chars[p]?.toList) ++ c.puts (p + 1) := by
  rw [selected, Nat.add_sub_cancel_left, List.range'_one, List.flatMap_singleton]

theorem selected_append (chars : List Char) (hstart : start ≤ p) (hstop : p ≤ stop) :
    c.selected start p chars ++ c.selected p stop chars = c.selected start stop chars := by
  have hrange := List.range'_append_1 (s := start) (m := p - start) (n := stop - p)
  rw [Nat.add_sub_cancel' hstart, show p - start + (stop - p) = stop - start by omega] at hrange
  rw [selected, selected, selected, ← List.flatMap_append, hrange]

theorem selected_of_untouched {chars : List Char}
    (h : ∀ k, start ≤ k → k < stop → c.takes k = false ∧ c.puts (k + 1) = []) :
    c.selected start stop chars = (chars.drop start).take (stop - start) := by
  rw [← Text.flatMap_range'_getElem?, selected]
  refine List.flatMap_congr fun k hk => ?_
  obtain ⟨hle, hlt⟩ := List.mem_range'_1.1 hk
  obtain ⟨htakes, hputs⟩ := h k hle (by omega)
  rw [htakes, hputs, List.append_nil]
  rfl

/-- The new text, character by character of the old one. -/
theorem toList_eq_selected (hc : ∀ next, c ≠ .set next) (h : c.edit? text = some after) :
    after.toList = c.puts 0 ++ c.selected 0 text.length text.toList := by
  rw [← weave_alone hc h, Text.weave_eq_flatMap, String.length_toList, selected, Nat.sub_zero,
    List.range_eq_range']

theorem shift_zero (hc : ∀ next, c ≠ .set next) : c.shift 0 = (c.puts 0).length := by
  cases c with
  | insert index piece =>
      rw [puts_insert, shift, afterInsert, apply_ite List.length, String.length_toList, List.length_nil]
      split_ifs <;> omega
  | remove index piece =>
      rw [puts_remove, shift, afterRemove, List.length_nil]
      split_ifs <;> omega
  | set next => exact absurd rfl (hc next)

theorem shift_succ (hc : ∀ next, c ≠ .set next) (p : Nat) :
    c.shift (p + 1) = c.shift p + ((if c.takes p then 0 else 1) + (c.puts (p + 1)).length) := by
  cases c with
  | insert index piece =>
      rw [takes_insert, puts_insert, shift, afterInsert, afterInsert, apply_ite List.length,
        String.length_toList, List.length_nil, if_neg Bool.false_ne_true]
      split_ifs <;> omega
  | remove index piece =>
      rw [takes_remove, puts_remove, shift, afterRemove, afterRemove, List.length_nil]
      simp only [decide_eq_true_eq]
      split_ifs <;> omega
  | set next => exact absurd rfl (hc next)

theorem length_selected (hc : ∀ next, c ≠ .set next) (hp : p ≤ text.length) :
    (c.puts 0 ++ c.selected 0 p text.toList).length = c.shift p := by
  induction p with
  | zero => rw [shift_zero hc, selected_self, List.append_nil]
  | succ p ih =>
      have hlt : p < text.toList.length := by rwa [String.length_toList]
      rw [← selected_append text.toList (Nat.zero_le p) (Nat.le_succ p), ← List.append_assoc,
        List.length_append, ih (Nat.le_of_succ_le hp), shift_succ hc, selected_succ,
        List.getElem?_eq_getElem hlt, List.length_append]
      split_ifs <;> rfl

/-! ## Cursors and selections -/

/-- The position `q` in the new text is where the position `p` in the old one has come to. -/
structure CursorFollows (c : StringChange) (text after : List Char) (p q : Nat) : Prop where
  le : q ≤ after.length
  behind : c.precedes p = true → after.drop q = text.drop p
  before : c.succeeds p = true → after.take q = text.take p

/-- The range `s` in the new text selects what the change has left of the range `r` in the old one. -/
structure SelectionFollows (c : StringChange) (text after : List Char) (r s : Nat × Nat) : Prop where
  ordered : s.1 ≤ s.2
  le : s.2 ≤ after.length
  selects : (after.take s.2).drop s.1 = c.selected r.1 r.2 text

variable (hc : ∀ next, c ≠ .set next) (h : c.edit? text = some after)
include hc h

/-- The map of positions cuts the new text where the gap cut the old one. -/
theorem cut_shift (hp : p ≤ text.length) :
    after.toList.take (c.shift p) = c.puts 0 ++ c.selected 0 p text.toList ∧
      after.toList.drop (c.shift p) = c.selected p text.length text.toList := by
  have hsplit := toList_eq_selected hc h
  rw [← selected_append text.toList (Nat.zero_le p) hp, ← List.append_assoc] at hsplit
  rw [hsplit, ← length_selected hc hp]
  exact ⟨List.take_left, List.drop_left⟩

theorem shift_le (hp : p ≤ text.length) : c.shift p ≤ after.toList.length := by
  have hlength := congrArg List.length (cut_shift hc h hp).1
  rw [length_selected hc hp, List.length_take] at hlength
  omega

theorem cursorFollows (hp : p ≤ text.length) :
    c.CursorFollows text.toList after.toList p (c.shift p) := by
  obtain ⟨hfront, hback⟩ := cut_shift hc h hp
  refine ⟨shift_le hc h hp, fun hbefore => ?_, fun hbehind => ?_⟩
  · rw [hback, selected_of_untouched fun k hk _ => untouched_of_precedes hbefore hk,
      List.take_of_length_le]
    rw [List.length_drop, String.length_toList]
  · obtain ⟨hnone, huntouched⟩ := untouched_of_succeeds hbehind
    rw [hfront, hnone, List.nil_append, selected_of_untouched fun k _ hk => huntouched k hk,
      List.drop_zero, Nat.sub_zero]

theorem selectionFollows (hstart : start ≤ stop) (hstop : stop ≤ text.length) :
    c.SelectionFollows text.toList after.toList (start, stop) (c.shift start, c.shift stop) := by
  have hlength := length_selected hc (hstart.trans hstop)
  have hsplit := (cut_shift hc h hstop).1
  rw [← selected_append text.toList (Nat.zero_le start) hstart, ← List.append_assoc] at hsplit
  refine ⟨?_, shift_le hc h hstop, ?_⟩
  · rw [← hlength, ← length_selected hc hstop, ← selected_append text.toList (Nat.zero_le start) hstart,
      ← List.append_assoc]
    exact (List.prefix_append _ _).length_le
  · rw [hsplit, ← hlength]
    exact List.drop_left

end StringChange

/-! ## References -/

namespace Anchors

variable {c : StringChange}

/-- Positions in a text are all moved by the same map, unless one lies strictly inside what is removed. -/
theorem follow_positions (hc : ∀ next, c ≠ .set next) (ps : List Nat) :
    follow (.string c) (.positions ps) =
      .ok (if ps.any fun p => c.buries p then none else some (.positions (ps.map c.shift))) := by
  cases c with
  | insert index piece =>
      have hnone : (ps.any fun p => StringChange.buries p (.insert index piece)) = false :=
        List.any_eq_false.2 fun _ _ => Bool.false_ne_true
      rw [hnone]
      rfl
  | remove index piece =>
      change (followPositions (.string (.remove index piece)) ps).map (Option.map Anchors.positions) = _
      simp only [followPositions, StringChange.buries_remove, Bool.decide_and]
      split_ifs <;> rfl
  | set next => exact absurd rfl (hc next)

theorem follow_ranges (hc : ∀ next, c ≠ .set next) (rs : List (Nat × Nat)) :
    follow (.string c) (.ranges rs) =
      .ok (some (.ranges (rs.map fun r => (c.shift r.1, c.shift r.2)))) := by
  cases c with
  | set next => exact absurd rfl (hc next)
  | _ => rfl

end Anchors

namespace Document

variable {doc next : Document} {edit : Edit} {record : Applied} {reference : Reference} {c : StringChange}
  {parent : Option ElementId} {text : String}

/-- An insertion into a text or a removal takes the anchors in the text along. Positions are obsolete exactly if
one lies strictly inside what is removed; otherwise there is a new position for each, and the text behind it or
in front of it is what it was. Ranges are never obsolete, and each new range selects what is left of the old
one. -/
theorem Reachable.text_anchors_follow (hdoc : doc.Reachable)
    (happly : doc.applyEdit edit = .ok (some record, next)) (hchange : edit.change = .string c)
    (hc : ∀ next, c ≠ .set next)
    (htext : Entries.find? edit.target doc.nodes = some ⟨parent, .string text⟩)
    (howner : reference.owner = some edit.target) : ∃ after,
      Entries.find? edit.target next.nodes = some ⟨parent, .string after⟩ ∧
      (∀ ps, reference.anchors = .positions ps → (∀ p ∈ ps, p ≤ text.length) →
        (reference.follow (.discrete edit) = .ok .obsolete ↔ ∃ p ∈ ps, c.buries p = true) ∧
        ((∀ p ∈ ps, c.buries p = false) → ∃ moved,
          reference.follow (.discrete edit) =
              .ok (.updated { reference with anchors := .positions moved }) ∧
            List.Forall₂ (c.CursorFollows text.toList after.toList) ps moved)) ∧
      (∀ rs, reference.anchors = .ranges rs → (∀ r ∈ rs, r.1 ≤ r.2 ∧ r.2 ≤ text.length) → ∃ moved,
        reference.follow (.discrete edit) = .ok (.updated { reference with anchors := .ranges moved }) ∧
          List.Forall₂ (c.SelectionFollows text.toList after.toList) rs moved) := by
  rcases cases_applyEdit happly with ⟨-, hnone, -⟩ | ⟨node, revision, hacted, -, rfl⟩
  · cases hnone
  · obtain rfl := Option.some.inj (htext.symm.trans hacted.found)
    have hregular : edit.change.Regular := by
      rw [hchange]
      exact ⟨trivial, nofun⟩
    have hcontent := (hacted.plan hdoc.sound).1
    rw [hchange] at hcontent
    obtain ⟨after, hafter, hsame⟩ := Option.map_eq_some_iff.1 hcontent
    have hnode := hacted.find?_target hdoc.sound hregular
    have hfollow : reference.follow (.discrete edit) = _ :=
      Reference.followEdits_of_aimed hacted.active howner
    rw [hchange] at hfollow
    refine ⟨after, hsame ▸ hnode, fun ps hps hinside => ?_, fun rs hrs hinside => ?_⟩
    · rw [hfollow, hps, Anchors.follow_positions hc]
      cases hburied : ps.any fun p => c.buries p with
      | true =>
          refine ⟨⟨fun _ => List.any_eq_true.1 hburied, fun _ => rfl⟩, fun hnone => ?_⟩
          obtain ⟨p, hp, htrue⟩ := List.any_eq_true.1 hburied
          cases (hnone p hp).symm.trans htrue
      | false =>
          refine ⟨⟨nofun, fun ⟨p, hp, htrue⟩ => ?_⟩, fun _ => ⟨ps.map c.shift, rfl, ?_⟩⟩
          · exact absurd htrue (List.any_eq_false.1 hburied p hp)
          · exact List.forall₂_map_right_iff.2 (List.forall₂_same.2 fun p hp =>
              StringChange.cursorFollows hc hafter (hinside p hp))
    · rw [hfollow, hrs, Anchors.follow_ranges hc]
      refine ⟨_, rfl, List.forall₂_map_right_iff.2 (List.forall₂_same.2 fun r hr => ?_)⟩
      exact StringChange.selectionFollows hc hafter (hinside r hr).1 (hinside r hr).2

def textCursors : Reference where
  owner := some "text"
  session := "session"
  key := "cursors"
  anchors := .positions [0, 1, 2]

def textSelections : Reference :=
  { textCursors with anchors := .ranges [(0, 1), (1, 2)] }

/-- A character that is put in at the end of one selection and at the start of the other is selected by the
first; and the cursor inside the text is lost with the text. -/
theorem text_anchors_follow_listOfText : ∃ record next record' next',
    listOfText.applyEdit splitText = .ok (some record, next) ∧
      textCursors.follow (.discrete splitText) =
        .ok (.updated { textCursors with anchors := .positions [0, 2, 3] }) ∧
      List.Forall₂ ((StringChange.insert 1 "x").CursorFollows "ab".toList "axb".toList)
        [0, 1, 2] [0, 2, 3] ∧
      textSelections.follow (.discrete splitText) =
        .ok (.updated { textSelections with anchors := .ranges [(0, 2), (2, 3)] }) ∧
      List.Forall₂ ((StringChange.insert 1 "x").SelectionFollows "ab".toList "axb".toList)
        [(0, 1), (1, 2)] [(0, 2), (2, 3)] ∧
      listOfText.applyEdit clearText = .ok (some record', next') ∧
      textCursors.follow (.discrete clearText) = .ok .obsolete := by
  obtain ⟨record, next, happly, hnode⟩ : ∃ record next,
      listOfText.applyEdit splitText = .ok (some record, next) ∧
        Entries.find? "text" next.nodes = some ⟨some "list", .string "axb"⟩ := ⟨_, _, rfl, rfl⟩
  obtain ⟨record', next', happly'⟩ : ∃ record' next',
      listOfText.applyEdit clearText = .ok (some record', next') := ⟨_, _, rfl⟩
  have howner : textCursors.owner = some "text" := rfl
  have howner' : textSelections.owner = some "text" := rfl
  obtain ⟨after, hafter, hcursors, -⟩ :=
    Reachable.text_anchors_follow reachable_listOfText happly rfl nofun rfl howner
  obtain ⟨after', hafter', -, hselections⟩ :=
    Reachable.text_anchors_follow reachable_listOfText happly rfl nofun rfl howner'
  obtain ⟨left, -, hlost, -⟩ :=
    Reachable.text_anchors_follow reachable_listOfText happly' rfl nofun rfl howner
  cases hnode.symm.trans hafter
  cases hnode.symm.trans hafter'
  obtain ⟨moved, hmoved, hfollows⟩ := (hcursors _ rfl (by decide)).2 (by decide)
  obtain ⟨moved', hmoved', hselects⟩ := hselections _ rfl (by decide)
  cases hmoved.symm.trans rfl
  cases hmoved'.symm.trans rfl
  exact ⟨record, next, record', next', happly, hmoved, hfollows, hmoved', hselects, happly',
    (hlost _ rfl (by decide)).1.2 (by decide)⟩

end Document
end CoEdit
