import CoEdit.Operation
import CoEdit.Text.Quoted

/-!
# Reconciling two changes

Two changes made to one element at the same time are adjusted so that each can follow the other. A
rule answers with what becomes of the first and what becomes of the second: another change of the
same family, or nothing.
-/
namespace CoEdit

/-- What a rule makes of one side. -/
inductive Outcome (α : Type) where
  | becomes (change : α)
  | dropped

/-- Why two operations cannot be reconciled. -/
inductive TransformError where
  /-- Changes of different families have no rule. -/
  | unsupported (first second : ChangeKind)
  /-- An index lies past the end of what a reorder describes. -/
  | indexOutOfRange (kind : ChangeKind) (index length : Nat)
  /-- One side found the property absent, the other found it present. -/
  | incompatible (first second : ChangeKind) (prop : String)
  deriving DecidableEq

def TransformError.message : TransformError → String
  | .unsupported first second =>
      "no transformation function registered for (" ++ first.name ++ ", " ++ second.name ++ ")"
  | .indexOutOfRange kind index length =>
      kind.name ++ " index " ++ toString index ++ " is out of range for length " ++ toString length
  | .incompatible first second prop =>
      first.name ++ " and " ++ second.name ++ " cannot be concurrent: property " ++
        Text.quoted prop ++ " cannot be both absent and present"

/-- What becomes of both sides. -/
abbrev Reconciled (α : Type) := Except TransformError (Outcome α × Outcome α)

namespace Reconciled

variable {α β : Type}

def both (first second : α) : Reconciled α :=
  .ok (.becomes first, .becomes second)

def firstOnly (first : α) : Reconciled α :=
  .ok (.becomes first, .dropped)

def secondOnly (second : α) : Reconciled α :=
  .ok (.dropped, .becomes second)

def neither : Reconciled α :=
  .ok (.dropped, .dropped)

def swap (answer : Reconciled α) : Reconciled α :=
  answer.map Prod.swap

/-- The first of two whole-value changes wins; two that agree cancel out. -/
def firstWins (agree : Bool) (first : α) : Reconciled α :=
  if agree then neither else firstOnly first

end Reconciled

/-- The same outcome as a change of a larger type. -/
def Outcome.map {α β : Type} (f : α → β) : Outcome α → Outcome β
  | .becomes a => .becomes (f a)
  | .dropped => .dropped

def Reconciled.lift {α β : Type} (f : α → β) (answer : Reconciled α) : Reconciled β :=
  answer.map fun pair => (pair.1.map f, pair.2.map f)

/-- What an outcome makes of an edit; an edit that is dropped keeps its change and becomes inert. -/
def Edit.after (edit : Edit) : Outcome Change → Edit
  | .becomes change => edit.withChange change
  | .dropped => edit.asInert

end CoEdit
