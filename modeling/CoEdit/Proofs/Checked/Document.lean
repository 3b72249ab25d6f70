import CoEdit.Proofs.Checked.Anchors
import CoEdit.Proofs.Descent
import CoEdit.Proofs.Document.Shape

/-!
# Nothing stops

An edit is carried out here with every access as a step that may stop. A reorder, a move or an edit of a text is
worked out on the content that was found for the check. Where children come or go, the arena is changed first, and
then the target is looked up once more and the items found there are edited by an index that was checked against
the items before. In a sound document the target is still there with the same items, because an element is never
below one of its own children and brings no id with it that is taken, so nothing stops (`applyEdit_eq`).

With the rules, the references and the paths this makes all that edits go through free of steps that stop, for any
legal edits, and for any that reconciling makes of them (`never_stops`).
-/
namespace CoEdit

/-! ## Exchanging what hangs below an element -/

namespace Entries

variable {α : Type} {k j : String} {v w found : α} {entries added : List (String × α)}

/-- An entry that is there is overwritten where it stands, before or after another one is put. -/
theorem put_comm (hne : k ≠ j) (h : find? k entries = some found) :
    put k v (put j w entries) = put j w (put k v entries) := by
  induction entries with
  | nil => cases h
  | cons e rest ih =>
      rcases e with ⟨i, u⟩
      rw [find?_cons] at h
      by_cases hik : i = k
      · subst hik
        rw [put, if_neg hne, put, if_pos rfl, put, if_pos rfl, put, if_neg hne]
      · rw [if_neg hik] at h
        by_cases hij : i = j
        · subst hij
          rw [put, if_pos rfl, put, if_neg hik, put, if_neg hik, put, if_pos rfl]
        · rw [put, if_neg hij, put, if_neg hik, put, if_neg hik, put, if_neg hij, ih h]

theorem put_putAll (h : find? k entries = some found) (hnew : k ∉ keys added) :
    put k v (putAll added entries) = putAll added (put k v entries) := by
  induction added generalizing entries with
  | nil => rfl
  | cons e rest ih =>
      rw [keys, List.map_cons, List.mem_cons, not_or] at hnew
      have hstep (es : List (String × α)) : putAll (e :: rest) es = putAll rest (put e.1 e.2 es) := rfl
      have hfound : find? k (put e.1 e.2 entries) = some found := by
        rw [find?_put, if_neg (Ne.symm hnew.1), h]
      rw [hstep, hstep, ih hfound hnew.2, put_comm hnew.1 h]

end Entries

namespace Document

variable {doc : Document} {target : ElementId} {node : Node} {content : Content ElementId}
  {removed detached : List ElementId} {added : List Element}

/-- The arena without what is detached and with the new trees hung under `target`. The content of the target still
lists the children that it had. -/
def exchanged (doc : Document) (target : ElementId) (detached : List ElementId) (added : List Element) : Arena :=
  Entries.putAll (added.flatMap (Element.placed (some target))) (Entries.eraseAll detached doc.nodes)

namespace Grafts

variable (h : doc.Sound) (g : doc.Grafts target node content removed detached added)
include h g

theorem find?_kept : Entries.find? target (Entries.eraseAll detached doc.nodes) = some node := by
  rw [Entries.find?_eraseAll, if_neg (g.target_stays h), g.found]

theorem find?_exchanged : Entries.find? target (doc.exchanged target detached added) = some node := by
  rw [exchanged, Entries.find?_putAll, find?_added_of_not_mem (g.target_not_added h), Option.none_or,
    g.find?_kept h]

/-- Giving the target its content last makes no difference. -/
theorem put_exchanged : { doc with
      nodes := Entries.put target { node with content } (doc.exchanged target detached added) } =
    doc.commit target content detached added := by
  have hnew : target ∉ Entries.keys (added.flatMap (Element.placed (some target))) := by
    rw [keys_flatMap_placed]
    exact g.target_not_added h
  simp only [commit, exchanged, g.find?_kept h, Entries.put_putAll (g.find?_kept h) hnew]

end Grafts
end Document

namespace Checked
open Document

variable {doc : Document} {id : ElementId} {content : Content ElementId} {change : Change} {edit : Edit}
  {revision : Revision}

/-! ## Plans -/

def reviseArray (doc : Document) (id : ElementId) (items : List ElementId) :
    ArrayChange → Option (Except DocumentError Revision)
  | .move source target =>
      if items.length ≤ source ∨ items.length ≤ target then
        some (.error (.indexOutOfBounds .arrayMove id (max source target) items.length))
      else do
        let (moved, rest) ← removeAt source items
        let after ← insertAt target moved rest
        return .ok ⟨.array after, .array (.move target source), [], []⟩
  | .reorder order =>
      if order.length ≠ items.length then some (.error (.reorderLength id order.length items.length))
      else do
        let after ← readAll order items
        let inverse ← Reorder.invert? order
        return .ok ⟨.array after, .array (.reorder inverse), [], []⟩
  | c => some (doc.reviseArray id items c)

/-- `Document.reviseString`, step by step. The end of a span that is removed is a sum, which is checked there. -/
def reviseString (id : ElementId) (text : String) : StringChange → Option (Result DocumentError Revision)
  | .insert index piece =>
      if text.length < index then some (.error (.indexOutOfBounds .stringInsert id index text.length))
      else do
        let after ← insertBytes (byteOffset index text) piece text
        return .ok ⟨.string after, .string (.remove index piece), [], []⟩
  | .remove index piece =>
      match Text.spanEnd? .checked index piece.length text.length with
      | none => some .overflow
      | some stop =>
          if text.length < stop then some (.error (.indexOutOfBounds .stringRemove id stop text.length))
          else do
            let (gone, after) ← drainBytes (byteOffset index text) (byteOffset stop text) text
            return .ok ⟨.string after, .string (.insert index gone), [], []⟩
  | c => some (Document.reviseString id text c)

def revise (doc : Document) (id : ElementId) :
    Content ElementId → Change → Option (Result DocumentError Revision)
  | .array items, .array c => (reviseArray doc id items c).map .ofExcept
  | .string text, .string c => reviseString id text c
  | content, change => some (doc.revise id content change)

theorem readAll_of_lt {α : Type} {order : List Nat} {items : List α} (h : ∀ k ∈ order, k < items.length) :
    readAll order items = some (Reorder.permute order items) := by
  rw [readAll, Reorder.permute]
  induction order with
  | nil => rfl
  | cons k rest ih =>
      rw [List.forall_mem_cons] at h
      rw [List.mapM_cons, ih h.2, List.filterMap_cons, List.getElem?_eq_getElem h.1]
      rfl

theorem reviseArray_eq {c : ArrayChange} (h : c.Lawful) (doc : Document) (id : ElementId)
    (items : List ElementId) : reviseArray doc id items c = some (doc.reviseArray id items c) := by
  cases c with
  | move source target =>
      rw [reviseArray, Document.reviseArray]
      by_cases hout : items.length ≤ source ∨ items.length ≤ target
      · rw [if_pos hout]
        split
        · next child hitem =>
            have hs := (List.getElem?_eq_some_iff.1 hitem).1
            rw [if_neg (by omega)]
        · rfl
      · rw [not_or, not_le, not_le] at hout
        have hitem := List.getElem?_eq_getElem hout.1
        have hgap : target ≤ (items.eraseIdx source).length := by
          rw [List.length_eraseIdx_of_lt hout.1]
          omega
        rw [if_neg (by omega), removeAt_of_getElem? hitem, hitem]
        simp only [Option.bind_eq_bind, Option.bind_some, insertAt_of_le hgap, if_pos hout.2]
        rfl
  | reorder order =>
      rw [reviseArray, Document.reviseArray]
      split_ifs with hlength
      · rfl
      · have hlt : ∀ k ∈ order, k < items.length := fun k hk =>
          (Reorder.lt_of_mem h hk).trans_eq (not_not.1 hlength)
        rw [readAll_of_lt hlt, Reorder.invert?_eq h]
        rfl
  | _ => rfl

theorem reviseString_eq (id : ElementId) (text : String) (c : StringChange) :
    reviseString id text c = some (Document.reviseString id text c) := by
  cases c with
  | insert index piece =>
      rw [reviseString, Document.reviseString, insertBytes_byteOffset]
      split_ifs <;> rfl
  | remove index piece =>
      rw [reviseString]
      by_cases hle : index + piece.length ≤ text.length
      · rw [reviseString_remove hle, Text.spanEnd?_of_word (.inl hle)]
        dsimp only
        rw [if_neg (not_lt.2 hle), drainBytes_byteOffset]
        rfl
      · rw [not_le] at hle
        by_cases hword : index + piece.length < Word.bound
        · rw [reviseString_remove_of_lt hle hword, Text.spanEnd?_of_word (.inr hword)]
          exact if_pos hle
        · rw [reviseString_remove_of_bound_le hle (not_lt.1 hword), Text.spanEnd?, if_neg (not_le.2 hle),
            Word.add?_checked_of_le (not_lt.1 hword)]
  | set next => rfl

/-- Planning stops nowhere. -/
theorem revise_eq (h : change.Lawful) (doc : Document) (id : ElementId) (content : Content ElementId) :
    revise doc id content change = some (doc.revise id content change) := by
  cases content with
  | array items =>
      cases change with
      | array c => rw [revise, reviseArray_eq h, Option.map_some, Document.revise]
      | _ => rfl
  | string text =>
      cases change with
      | string c => exact reviseString_eq id text c
      | _ => rfl
  | _ => rfl

/-! ## Carrying a plan out -/

/-- The content of the target once children came and went. An array that gains, loses or exchanges an item is edited
as it is found then; any other content is the planned one. -/
def settle (planned : Content ElementId) : Content ElementId → Change → Option (Content ElementId)
  | .array items, .array (.insert index value) => (insertAt index value.id items).map .array
  | .array items, .array (.remove index) => (removeAt index items).map fun left => .array left.2
  | .array items, .array (.replace index value) => (writeAt index value.id items).map .array
  | _, _ => some planned

def applyEdit (doc : Document) (edit : Edit) : Option (Result DocumentError (Option Applied × Document)) :=
  if edit.inert then some (.ok (none, doc))
  else match Entries.find? edit.target doc.nodes with
    | none => some (.ok (none, doc))
    | some node => do
        match ← revise doc edit.target node.content edit.change with
        | .error e => return .error e
        | .overflow => return .overflow
        | .ok revision =>
            let detached := revision.removed.flatMap fun child => (doc.subtree child).ids
            match doc.checkFresh detached revision.added with
            | .error e => return .error e
            | .ok () =>
                let nodes := doc.exchanged edit.target detached revision.added
                let found ← Entries.find? edit.target nodes
                let content ← settle revision.content found.content edit.change
                return .ok (some ⟨edit, edit.withChange revision.inverse, detached⟩,
                  { doc with nodes := Entries.put edit.target { found with content } nodes })

/-- An index that was checked when the change was planned is still good for the same items. -/
theorem settle_array {items : List ElementId} {c : ArrayChange}
    (h : doc.reviseArray id items c = .ok revision) :
    settle revision.content (.array items) (.array c) = some revision.content := by
  cases c with
  | insert index value =>
      rw [Document.reviseArray] at h
      split_ifs at h with hlt
      cases h
      rw [settle, insertAt_of_le (by omega), Option.map_some]
  | remove index =>
      rw [Document.reviseArray] at h
      split at h
      · cases h
      · next child hitem =>
          cases h
          rw [settle, removeAt_of_getElem? hitem, Option.map_some]
  | replace index value =>
      rw [Document.reviseArray] at h
      split at h
      · cases h
      · next child hitem =>
          cases h
          rw [settle, writeAt_of_lt (List.getElem?_eq_some_iff.1 hitem).1, Option.map_some]
  | _ => rfl

theorem settle_eq (h : doc.revise id content change = .ok revision) :
    settle revision.content content change = some revision.content := by
  cases content with
  | array items =>
      cases change with
      | array c => exact settle_array (Result.ofExcept_eq_ok_iff.1 h)
      | _ => rfl
  | _ => rfl

/-- No edit of a sound document stops. -/
theorem applyEdit_eq (hdoc : doc.Sound) (hregular : edit.change.Regular) :
    applyEdit doc edit = some (doc.applyEdit edit) := by
  rw [applyEdit]
  cases hinert : edit.inert with
  | true =>
      rw [applyEdit_of_idle (.inl hinert)]
      rfl
  | false =>
      cases hfound : Entries.find? edit.target doc.nodes with
      | none =>
          rw [applyEdit_of_idle (.inr (not_contains_iff.2 hfound))]
          rfl
      | some node =>
          simp only [Bool.false_eq_true, if_false, revise_eq hregular.lawful, Option.bind_eq_bind,
            Option.bind_some]
          cases hplan : doc.revise edit.target node.content edit.change with
          | error e =>
              rw [applyEdit_of_found hinert hfound, hplan]
              rfl
          | overflow =>
              rw [applyEdit_of_found hinert hfound, hplan]
              rfl
          | ok revision =>
              dsimp only
              cases hfresh : doc.checkFresh
                  (revision.removed.flatMap fun child => (doc.subtree child).ids) revision.added with
              | error e =>
                  rw [applyEdit_of_found hinert hfound, hplan, Result.bind_ok, hfresh]
                  rfl
              | ok =>
                  -- the exchange leaves the target with the content that the plan was made for
                  have hacted : doc.Acted edit node revision := ⟨hinert, hfound, hplan, hfresh⟩
                  have hgrafts := hacted.grafts hdoc hregular
                  rw [hacted.applyEdit_eq, revised, ← hgrafts.put_exchanged hdoc]
                  simp only [hgrafts.find?_exchanged hdoc, Option.bind_some, settle_eq hplan]
                  rfl

/-! ## Nothing stops -/

/-- Whatever indices two legal edits name, reconciling them stops nowhere. Neither does following any reference
through any operation, nor rebasing any path under a legal edit, nor applying an edit of an operation that was built
from legal edits and reconciled any number of times to a document that came about by edits. Each of them ends in the
answer, or in the error, that is given without looking at the steps, the end of a removed span that is no word
aside. -/
theorem never_stops :
    (∀ s c : Edit, s.change.Legal → c.change.Legal → reconcile s c = some (s.reconcile c)) ∧
    (∀ (reference : Reference) (operation : Operation),
      follow reference operation = some (reference.follow operation)) ∧
    (∀ (edit : Edit) (ancestor descendant : Path), edit.change.Legal →
      rebase edit ancestor descendant = some (edit.rebase ancestor descendant)) ∧
    ∀ (doc : Document) (operation : Operation), doc.Reachable → operation.Derived →
      ∀ edit ∈ operation.edits, applyEdit doc edit = some (doc.applyEdit edit) := by
  refine ⟨fun s c => reconcile_eq, follow_eq, fun edit ancestor descendant hedit =>
    rebase_eq hedit ancestor descendant, fun doc operation hdoc hoperation edit hedit => ?_⟩
  exact applyEdit_eq hdoc.sound (hoperation.legal edit hedit).regular

def dropTitle : Edit :=
  ⟨"title", .string (.remove 0 "Ab"), false⟩

def sharpen : Edit :=
  ⟨"title", .string (.insert 1 "ß"), false⟩

/-- The title is taken out after a character was put into it, and far from any list of one item edits meet, a cursor
is turned away and a path is rebased. -/
theorem never_stops_sheet : ∃ record grown dropped sharpened,
    sheet.applyEdit sharpen = .ok (record, grown) ∧
    Operation.transform (.discrete dropTitle) (.discrete sharpen) = .ok (dropped, sharpened) ∧
    dropped.edits = [⟨"title", .string (.remove 0 "Aßb"), false⟩] ∧
    (∀ edit ∈ dropped.edits, applyEdit grown edit = some (grown.applyEdit edit)) ∧
    reconcile ⟨"rows", .array (.remove 5), false⟩ ⟨"rows", .array (.move 9 0), false⟩ =
      some (.ok (⟨"rows", .array (.remove 6), false⟩, ⟨"rows", .array (.move 8 0), false⟩)) ∧
    follow ⟨some "rows", "session", "cursor", .positions [7]⟩
        (.discrete ⟨"rows", .array (.reorder [1, 0, 2]), false⟩) =
      some (.error (.indexOutOfRange .arrayReorder 7 3)) ∧
    rebase ⟨"rows", .array (.remove 5), false⟩ [.key "rows"] [.key "rows", .index 9] =
      some (.updated [.key "rows", .index 8]) := by
  obtain ⟨hreconcile, hfollow, hrebase, happly⟩ := never_stops
  have hlegal : sharpen.change.Legal := by decide +kernel
  have hsharpen : (Operation.discrete sharpen).Derived := .built (by decide +kernel)
  have hdrop : (Operation.discrete dropTitle).Derived := .built (by decide +kernel)
  exact ⟨_, _, _, _, rfl, rfl, rfl,
    happly _ _ (.applyEdit reachable_sheet hlegal.regular rfl) (.first hdrop hsharpen rfl),
    hreconcile _ _ (by decide) (by decide), hfollow _ _, hrebase _ _ _ (by decide)⟩

end Checked
end CoEdit
