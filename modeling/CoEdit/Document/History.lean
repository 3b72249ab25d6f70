import CoEdit.Document.Apply

/-!
# Undo history

A history is a document together with the records of every step taken on it, newest step first.
Undoing a step applies the inverses of its records in reverse.
-/
namespace CoEdit

/-- A document and what was done to it. -/
structure History where
  document : Document
  /-- The records of each step, newest step first. -/
  steps : List (List Applied)

namespace History

def start (document : Document) : History := ⟨document, []⟩

/-- Takes the step `operation`; a step that did nothing counts too. -/
def apply (history : History) (operation : Operation) (build : Build := .checked) :
    Result DocumentError (List Applied) × History :=
  match history.document.apply operation build with
  | (.ok records, document) => (.ok records, ⟨document, records :: history.steps⟩)
  | (.error e, document) => (.error e, { history with document })
  | (.overflow, document) => (.overflow, { history with document })

def applyEdit (history : History) (edit : Edit) (build : Build := .checked) :
    Result DocumentError (Option Applied) × History :=
  match history.document.applyEdit edit build with
  | .ok (record, document) => (.ok record, ⟨document, record.toList :: history.steps⟩)
  | .error e => (.error e, history)
  | .overflow => (.overflow, history)

/-- Applies edits one after the other up to the first that is refused. -/
def applyEach (document : Document) (edits : List Edit) (build : Build := .checked) :
    Result DocumentError (List (Option Applied)) × Document :=
  match edits with
  | [] => (.ok [], document)
  | edit :: rest =>
      match document.applyEdit edit build with
      | .error e => (.error e, document)
      | .overflow => (.overflow, document)
      | .ok (record, next) =>
          let (records, last) := applyEach next rest build
          (records.map (record :: ·), last)

def undo (history : History) (build : Build := .checked) :
    Result DocumentError (Option (List (Option Applied))) × History :=
  match history.steps with
  | [] => (.ok none, history)
  | records :: steps =>
      let (answer, document) :=
        applyEach history.document (records.reverse.map Applied.inverse) build
      (answer.map some, ⟨document, steps⟩)

end History
end CoEdit
