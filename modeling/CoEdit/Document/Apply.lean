import CoEdit.Document.Basic
import CoEdit.Operation
import CoEdit.Result
import CoEdit.Text.Splice

/-!
# Applying operations

An edit is first planned on the content of its target alone: the content it leaves, the change that
undoes it, the children that go and the trees that come. Only then is the arena changed, in one way
for all kinds of change. An edit that is inert or whose target is gone does nothing; an edit that is
refused leaves the document as it was.

An operation of several edits is taken back when one of them is refused, by applying the inverses of
those before it in reverse.

The one sum of words on the way is the end of a span that is removed from a text. Where it is no word
the build decides what follows; unless one is given, sums are checked.
-/
namespace CoEdit

/-- What a change does to the content of its target. -/
structure Revision where
  content : Content ElementId
  /-- The change that undoes this one. -/
  inverse : Change
  /-- The children that leave, in order. -/
  removed : List ElementId
  /-- The trees that arrive, in order. -/
  added : List Element

/-- The record of an applied edit. -/
structure Applied where
  edit : Edit
  inverse : Edit
  /-- The ids that left the document, each subtree parents first. -/
  detached : List ElementId

namespace Document

def reviseArray (doc : Document) (id : ElementId) (items : List ElementId) :
    ArrayChange → Except DocumentError Revision
  | .insert index value =>
      if items.length < index then .error (.indexOutOfBounds .arrayInsert id index items.length)
      else .ok ⟨.array (items.insertIdx index value.id), .array (.remove index), [], [value]⟩
  | .remove index =>
      match items[index]? with
      | none => .error (.indexOutOfBounds .arrayRemove id index items.length)
      | some child =>
          .ok ⟨.array (items.eraseIdx index), .array (.insert index (doc.subtree child)), [child], []⟩
  | .replace index value =>
      match items[index]? with
      | none => .error (.indexOutOfBounds .arrayReplace id index items.length)
      | some child =>
          .ok ⟨.array (items.set index value.id), .array (.replace index (doc.subtree child)),
            [child], [value]⟩
  | .move source target =>
      match items[source]? with
      | some child =>
          if target < items.length then
            .ok ⟨.array ((items.eraseIdx source).insertIdx target child),
              .array (.move target source), [], []⟩
          else .error (.indexOutOfBounds .arrayMove id (max source target) items.length)
      | none => .error (.indexOutOfBounds .arrayMove id (max source target) items.length)
  | .reorder order =>
      if order.length ≠ items.length then
        .error (.reorderLength id order.length items.length)
      else
        .ok ⟨.array (Reorder.permute order items), .array (.reorder (Reorder.inverse order)), [], []⟩
  | .set values =>
      .ok ⟨.array (values.map Element.id), .array (.set (items.map doc.subtree)), items, values⟩

/-- Plans a change to a text. -/
def reviseString (id : ElementId) (text : String) (change : StringChange)
    (build : Build := .checked) : Result DocumentError Revision :=
  match change with
  | .insert index piece =>
      if text.length < index then
        .error (.indexOutOfBounds .stringInsert id index text.length)
      else .ok ⟨.string (Text.insert index piece text), .string (.remove index piece), [], []⟩
  | .remove index piece =>
      match Text.spanEnd? build index piece.length text.length with
      | none => .overflow
      | some stop =>
          if text.length < stop then .error (.indexOutOfBounds .stringRemove id stop text.length)
          -- an end that lost the bound may lie in front of the span, and then nothing can be taken out
          else if stop < min index text.length then .overflow
          else
            .ok ⟨.string (Text.remove index (stop - index) text),
              .string (.insert index (Text.slice index (stop - index) text)), [], []⟩
  | .set next => .ok ⟨.string next, .string (.set text), [], []⟩

section Remove

variable {id : ElementId} {text piece : String} {index : Nat} {revision : Revision}

theorem reviseString_remove (h : index + piece.length ≤ text.length) (build : Build) :
    reviseString id text (.remove index piece) build =
      .ok ⟨.string (Text.remove index piece.length text),
        .string (.insert index (Text.slice index piece.length text)), [], []⟩ := by
  simp only [reviseString, Text.spanEnd?_of_word (.inl h)]
  rw [if_neg (by omega), if_neg (by omega), Nat.add_sub_cancel_left]

theorem reviseString_remove_of_lt (h : text.length < index + piece.length)
    (hword : index + piece.length < Word.bound) (build : Build) :
    reviseString id text (.remove index piece) build =
      .error (.indexOutOfBounds .stringRemove id (index + piece.length) text.length) := by
  simp only [reviseString, Text.spanEnd?_of_word (.inr hword)]
  rw [if_pos h]

theorem reviseString_remove_of_bound_le (h : text.length < index + piece.length)
    (hword : Word.bound ≤ index + piece.length) :
    reviseString id text (.remove index piece) = .overflow := by
  simp only [reviseString, Text.spanEnd?, if_neg (Nat.not_le.2 h), Word.add?_checked_of_le hword]

/-- With checked sums a span is removed exactly if it lies in the text. -/
theorem reviseString_remove_eq_ok_iff : reviseString id text (.remove index piece) = .ok revision ↔
    index + piece.length ≤ text.length ∧
      revision = ⟨.string (Text.remove index piece.length text),
        .string (.insert index (Text.slice index piece.length text)), [], []⟩ := by
  by_cases h : index + piece.length ≤ text.length
  · simp [reviseString_remove h, h, eq_comm]
  · by_cases hword : index + piece.length < Word.bound
    · simp [reviseString_remove_of_lt (Nat.not_le.1 h) hword, h]
    · simp [reviseString_remove_of_bound_le (Nat.not_le.1 h) (Nat.not_lt.1 hword), h]

end Remove

/-- Plans a change to an object. A new property goes to the end, an overwritten one stays where it
is. -/
def reviseObject (doc : Document) (id : ElementId) (props : List (String × ElementId)) :
    ObjectChange → Except DocumentError Revision
  | .add prop value =>
      if Entries.contains prop props then .error (.propertyExists id prop)
      else .ok ⟨.object (Entries.put prop value.id props), .object (.remove prop), [], [value]⟩
  | .assign prop value =>
      match Entries.find? prop props with
      | none => .error (.propertyNotFound id prop)
      | some child =>
          .ok ⟨.object (Entries.put prop value.id props),
            .object (.assign prop (doc.subtree child)), [child], [value]⟩
  | .remove prop =>
      match Entries.find? prop props with
      | none => .error (.propertyNotFound id prop)
      | some child =>
          .ok ⟨.object (Entries.erase prop props), .object (.add prop (doc.subtree child)),
            [child], []⟩
  | .set values =>
      .ok ⟨.object (values.map fun p => (p.1, p.2.id)),
        .object (.set (props.map fun p => (p.1, doc.subtree p.2))),
        Entries.values props, Entries.values values⟩

def reviseNumber (value : Float) : NumberChange → Revision
  | .delta amount => ⟨.number (value + amount), .number (.delta (-amount)), [], []⟩
  | .set next => ⟨.number next, .number (.set value), [], []⟩

/-- Plans a change to the element `id` with the given content. -/
def revise (doc : Document) (id : ElementId) (content : Content ElementId) (change : Change)
    (build : Build := .checked) : Result DocumentError Revision :=
  match content, change with
  | .array items, .array c => .ofExcept (doc.reviseArray id items c)
  | .string text, .string c => reviseString id text c build
  | .object props, .object c => .ofExcept (doc.reviseObject id props c)
  | .number value, .number c => .ok (reviseNumber value c)
  | .boolean value, .booleanSet next => .ok ⟨.boolean next, .booleanSet value, [], []⟩
  | .date value, .dateSet next => .ok ⟨.date next, .dateSet value, [], []⟩
  | content, change => .error (.typeMismatch change.kind id content.typeName)

/-- Drops the nodes in `detached`, gives `target` its new content and hangs the new trees under it. -/
def commit (doc : Document) (target : ElementId) (content : Content ElementId)
    (detached : List ElementId) (added : List Element) : Document :=
  let kept := Entries.eraseAll detached doc.nodes
  let revised := match Entries.find? target kept with
    | some node => Entries.put target { node with content } kept
    | none => kept
  { doc with nodes := Entries.putAll (added.flatMap (Element.placed (some target))) revised }

/-- What is found under an id after a commit: a new node, else nothing if the id was detached, else the
target with its new content, else what was there before. -/
theorem find?_commit (doc : Document) (target : ElementId) (content : Content ElementId)
    (detached : List ElementId) (added : List Element) (id : ElementId) :
    Entries.find? id (doc.commit target content detached added).nodes =
      (Entries.find? id (added.flatMap (Element.placed (some target))).reverse).or
        (if id ∈ detached then none
          else if target = id then
            (Entries.find? id doc.nodes).map fun node => { node with content }
          else Entries.find? id doc.nodes) := by
  simp only [commit]
  rw [Entries.find?_putAll]
  congr 1
  cases hfound : Entries.find? target (Entries.eraseAll detached doc.nodes) with
  | none =>
      rw [Entries.find?_eraseAll] at hfound ⊢
      by_cases hid : id ∈ detached
      · simp [hid]
      · by_cases ht : target = id
        · subst ht
          simp [hid] at hfound
          simp [hid, hfound]
        · simp [hid, ht]
  | some node =>
      rw [Entries.find?_eraseAll] at hfound
      simp only [Entries.find?_put, Entries.find?_eraseAll]
      by_cases ht : target = id
      · subst ht
        by_cases hid : target ∈ detached
        · simp [hid] at hfound
        · simp [hid] at hfound
          simp [hid, hfound]
      · simp [ht]

/-- Applies one edit. There is no record if it was inert or its target is not attached. -/
def applyEdit (doc : Document) (edit : Edit) (build : Build := .checked) :
    Result DocumentError (Option Applied × Document) :=
  if edit.inert then .ok (none, doc)
  else match Entries.find? edit.target doc.nodes with
    | none => .ok (none, doc)
    | some node => do
        let revision ← doc.revise edit.target node.content edit.change build
        let detached := revision.removed.flatMap fun child => (doc.subtree child).ids
        .ofExcept (doc.checkFresh detached revision.added)
        return (some ⟨edit, edit.withChange revision.inverse, detached⟩,
          doc.commit edit.target revision.content detached revision.added)

/-- An edit that is inert, or whose target is not attached, does nothing. -/
theorem applyEdit_of_idle {doc : Document} {edit : Edit} {build : Build}
    (h : edit.inert = true ∨ doc.contains edit.target = false) :
    doc.applyEdit edit build = .ok (none, doc) := by
  unfold applyEdit
  by_cases hinert : edit.inert = true
  · simp [hinert]
  · rcases h with h | h
    · exact absurd h hinert
    · have hnone : Entries.find? edit.target doc.nodes = none := by
        simpa [contains, Entries.contains] using h
      simp [hinert, hnone]

/-- Applies the inverses of `done`, which lists the newest record first. An inverse that is refused
is passed over. -/
def rollBack (doc : Document) (done : List Applied) (build : Build := .checked) : Document :=
  done.foldl (fun doc record =>
    match doc.applyEdit record.inverse build with
    | .ok (_, next) => next
    | .error _ => doc
    | .overflow => doc) doc

/-- Applies edits one after the other, with the records of those before on `done`, newest first. A
program that stops takes nothing back. -/
def applyEdits (doc : Document) (done : List Applied) (edits : List Edit)
    (build : Build := .checked) : Result DocumentError (List Applied) × Document :=
  match edits with
  | [] => (.ok done.reverse, doc)
  | edit :: rest =>
      match doc.applyEdit edit build with
      | .ok (some record, next) => next.applyEdits (record :: done) rest build
      | .ok (none, next) => next.applyEdits done rest build
      | .error e => (.error e, doc.rollBack done build)
      | .overflow => (.overflow, doc)

/-- Applies an operation. The answer holds the records of the edits that did something, or the error
of the first that was refused, next to the document after the call. -/
def apply (doc : Document) (operation : Operation) (build : Build := .checked) :
    Result DocumentError (List Applied) × Document :=
  doc.applyEdits [] operation.edits build

end Document
end CoEdit
