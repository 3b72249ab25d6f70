import CoEdit.Proofs.Document.Apply

/-!
# Where the build matters

The end of a span that is removed from a text is the only sum of words that edits lead to, and the builds differ
only where the text does not reach that far and the end is no word (`exists_remove_of_overflow`). There checked
sums stop. Without checks the edit may be taken, but it leaves a text that could have been set, so the documents
that come about are the same in both builds (`Reachable.apply_build`). Any other answer is given in both builds
(`applyEdit_build`), and so edits that are taken with checked sums are taken in any build
(`applyEdits_of_ok_checked`).
-/
namespace CoEdit

namespace Document

variable {doc next last : Document} {id : ElementId} {content : Content ElementId} {change : Change}
  {revision : Revision} {edit : Edit} {edits : List Edit} {record : Option Applied}
  {done records : List Applied} {build : Build}

/-! ## Plans -/

/-- Checked sums stop a plan only at the removal of a span whose end lies past the text and is no word. -/
theorem exists_remove_of_reviseString_overflow {text : String} {c : StringChange}
    (h : reviseString id text c = .overflow) :
    ∃ index piece, c = .remove index piece ∧ text.length < index + piece.length ∧
      Word.bound ≤ index + piece.length := by
  cases c with
  | insert index piece =>
      rw [reviseString] at h
      split_ifs at h
  | remove index piece =>
      have hpast : text.length < index + piece.length := by
        by_contra hle
        rw [reviseString_remove (not_lt.1 hle)] at h
        cases h
      refine ⟨index, piece, rfl, hpast, ?_⟩
      by_contra hword
      rw [reviseString_remove_of_lt hpast (not_le.1 hword)] at h
      cases h
  | set value => cases h

theorem exists_remove_of_overflow (h : doc.revise id content change = .overflow) :
    ∃ text index piece, content = .string text ∧ change = .string (.remove index piece) ∧
      text.length < index + piece.length ∧ Word.bound ≤ index + piece.length := by
  cases content with
  | string text =>
      cases change with
      | string c =>
          obtain ⟨index, piece, rfl, hpast, hbound⟩ := exists_remove_of_reviseString_overflow h
          exact ⟨text, index, piece, rfl, rfl, hpast, hbound⟩
      | _ => cases h
  | array items =>
      cases change with
      | array c => exact absurd h Result.ofExcept_ne_overflow
      | _ => cases h
  | object props =>
      cases change with
      | object c => exact absurd h Result.ofExcept_ne_overflow
      | _ => cases h
  | _ => cases change <;> cases h

theorem reviseString_build {text : String} {c : StringChange} (h : reviseString id text c ≠ .overflow)
    (build : Build) : reviseString id text c build = reviseString id text c := by
  cases c with
  | insert index piece => rfl
  | remove index piece =>
      by_cases hle : index + piece.length ≤ text.length
      · rw [reviseString_remove hle, reviseString_remove hle]
      · rw [not_le] at hle
        have hword : index + piece.length < Word.bound := by
          by_contra hbound
          exact h (reviseString_remove_of_bound_le hle (not_lt.1 hbound))
        rw [reviseString_remove_of_lt hle hword, reviseString_remove_of_lt hle hword]
  | set value => rfl

/-- A plan at which checked sums do not stop is the same in any build. -/
theorem revise_build (h : doc.revise id content change ≠ .overflow) (build : Build) :
    doc.revise id content change build = doc.revise id content change := by
  cases content with
  | string text =>
      cases change with
      | string c => exact reviseString_build h build
      | _ => rfl
  | _ => cases change <;> rfl

/-- Whatever span is removed, a text is left. -/
theorem exists_text_of_remove {text piece : String} {index : Nat}
    (h : reviseString id text (.remove index piece) build = .ok revision) :
    ∃ left gone, revision = ⟨.string left, .string (.insert index gone), [], []⟩ := by
  rw [reviseString] at h
  split at h
  · cases h
  · split_ifs at h
    cases h
    exact ⟨_, _, rfl⟩

/-! ## Edits -/

theorem exists_revise_of_applyEdit_overflow (h : doc.applyEdit edit = .overflow) :
    ∃ node, edit.inert = false ∧ Entries.find? edit.target doc.nodes = some node ∧
      doc.revise edit.target node.content edit.change = .overflow := by
  cases hinert : edit.inert with
  | true =>
      rw [applyEdit_of_idle (.inl hinert)] at h
      cases h
  | false =>
      cases hfound : Entries.find? edit.target doc.nodes with
      | none =>
          rw [applyEdit_of_idle (.inr (not_contains_iff.2 hfound))] at h
          cases h
      | some node =>
          refine ⟨node, rfl, rfl, ?_⟩
          rw [applyEdit_of_found hinert hfound] at h
          cases hplan : doc.revise edit.target node.content edit.change with
          | overflow => rfl
          | error e =>
              rw [hplan] at h
              cases h
          | ok revision =>
              rw [hplan, Result.bind_ok] at h
              cases hfresh : doc.checkFresh (revision.removed.flatMap fun child =>
                  (doc.subtree child).ids) revision.added <;> rw [hfresh] at h <;> cases h

theorem applyEdit_build (h : doc.applyEdit edit ≠ .overflow) (build : Build) :
    doc.applyEdit edit build = doc.applyEdit edit := by
  cases hinert : edit.inert with
  | true => rw [applyEdit_of_idle (.inl hinert), applyEdit_of_idle (.inl hinert)]
  | false =>
      cases hfound : Entries.find? edit.target doc.nodes with
      | none =>
          have hgone := not_contains_iff.2 hfound
          rw [applyEdit_of_idle (.inr hgone), applyEdit_of_idle (.inr hgone)]
      | some node =>
          have hplan : doc.revise edit.target node.content edit.change ≠ .overflow := by
            intro hplan
            rw [applyEdit_of_found hinert hfound, hplan] at h
            exact h rfl
          rw [applyEdit_of_found hinert hfound, applyEdit_of_found hinert hfound, revise_build hplan]

theorem applyEdit_of_ok {answer : Option Applied × Document} (h : doc.applyEdit edit = .ok answer)
    (build : Build) : doc.applyEdit edit build = .ok answer := by
  rw [applyEdit_build (by simp [h]), h]

/-- Where checked sums stop and the edit is taken all the same, it leaves what setting the text would leave. -/
theorem exists_set_of_overflow (h : doc.applyEdit edit = .overflow)
    (htaken : doc.applyEdit edit build = .ok (record, next)) :
    ∃ left index gone done, doc.applyEdit (edit.withChange (.string (.set left))) = .ok (done, next) ∧
      record = some ⟨edit, edit.withChange (.string (.insert index gone)), []⟩ := by
  obtain ⟨node, hactive, hfound, hplan⟩ := exists_revise_of_applyEdit_overflow h
  obtain ⟨text, index, piece, hcontent, hchange, -, -⟩ := exists_remove_of_overflow hplan
  rw [applyEdit_of_found hactive hfound, Result.bind_eq_ok_iff] at htaken
  obtain ⟨revision, hrevise, htaken⟩ := htaken
  rw [hcontent, hchange] at hrevise
  obtain ⟨left, gone, rfl⟩ := exists_text_of_remove hrevise
  have hactive' : (edit.withChange (.string (.set left))).inert = false := hactive
  have hset := applyEdit_of_found hactive' hfound .checked
  rw [hcontent] at hset
  cases htaken
  exact ⟨left, index, gone, _, hset, rfl⟩

/-! ## Runs -/

theorem regular_string (c : StringChange) : (Change.string c).Regular :=
  ⟨trivial, fun _ h => absurd h List.not_mem_nil⟩

namespace Reachable

/-- An edit leads to a document that comes about with checked sums, and so does what takes it back. -/
theorem applyEdit_build (before : doc.Reachable) (hregular : edit.change.Regular)
    (h : doc.applyEdit edit build = .ok (record, next)) :
    next.Reachable ∧ ∀ done ∈ record, done.inverse.change.Regular := by
  by_cases hstop : doc.applyEdit edit = .overflow
  · obtain ⟨left, index, gone, done, hset, rfl⟩ := exists_set_of_overflow hstop h
    refine ⟨before.applyEdit (regular_string _) hset, ?_⟩
    rintro _ ⟨⟩
    exact regular_string _
  · rw [Document.applyEdit_build hstop] at h
    refine ⟨before.applyEdit hregular h, ?_⟩
    rintro done ⟨⟩
    exact regular_of_applyEdit before.sound hregular h

end Reachable

/-! ## A text that ends before the span -/

/-- Removes one character from the last place that a word can tell. -/
def beyond : Edit :=
  ⟨"text", .string (.remove 18446744073709551615 "a"), false⟩

end Document
end CoEdit
