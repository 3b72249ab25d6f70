import CoEdit.Transform.Operation

/-!
# Which kinds can be reconciled

Changes of one family always have a rule, which may still find that the two could not have been made
to the same element; changes of different families have none. The main statement is
`transform_eq_unsupported_iff`.
-/
namespace CoEdit

namespace ChangeKind

/-- Whether there is a rule for concurrent changes of these kinds to one element. -/
def reconciles (first second : ChangeKind) : Bool :=
  first.family == second.family

/-- The pairs of kinds of one family without a rule. -/
def unreconciled : List (ChangeKind × ChangeKind) :=
  all.flatMap fun first =>
    (all.filter fun second => first.family == second.family && !reconciles first second).map
      (first, ·)

end ChangeKind

/-- The answer is no complaint about a missing rule. -/
def Reconciled.HasRule {α : Type} (answer : Reconciled α) : Prop :=
  ∀ first second, answer ≠ .error (.unsupported first second)

namespace Reconciled

variable {α β : Type}

@[simp] theorem hasRule_ok (pair : Outcome α × Outcome α) :
    HasRule (.ok pair : Reconciled α) := by
  simp [HasRule]

@[simp] theorem hasRule_indexOutOfRange (kind : ChangeKind) (index length : Nat) :
    HasRule (.error (.indexOutOfRange kind index length) : Reconciled α) := by
  simp [HasRule]

@[simp] theorem hasRule_incompatible (k l : ChangeKind) (prop : String) :
    HasRule (.error (.incompatible k l prop) : Reconciled α) := by
  simp [HasRule]

@[simp] theorem hasRule_both (a b : α) : (both a b).HasRule := hasRule_ok _

@[simp] theorem hasRule_firstOnly (a : α) : (firstOnly a).HasRule := hasRule_ok _

@[simp] theorem hasRule_secondOnly (a : α) : (secondOnly a).HasRule := hasRule_ok _

@[simp] theorem hasRule_neither : (neither : Reconciled α).HasRule := hasRule_ok _

@[simp] theorem hasRule_firstWins (agree : Bool) (a : α) : (firstWins agree a).HasRule := by
  cases agree <;> simp [firstWins]

@[simp] theorem hasRule_swap (answer : Reconciled α) : answer.swap.HasRule ↔ answer.HasRule := by
  cases answer <;> simp [swap, Except.map, HasRule]

@[simp] theorem hasRule_lift (f : α → β) (answer : Reconciled α) :
    (answer.lift f).HasRule ↔ answer.HasRule := by
  cases answer <;> simp [lift, Except.map, HasRule]

end Reconciled

theorem ArrayChange.hasRule_transform (c d : ArrayChange) : (c.transform d).HasRule := by
  cases c <;> cases d <;>
    simp only [ArrayChange.transform, insertRemove, insertReplace, removeReplace, insertReorder,
      removeReorder, replaceReorder, moveReorder, reorderReorder, Reconciled.hasRule_swap,
      Reconciled.hasRule_firstWins, Reconciled.hasRule_firstOnly, Reconciled.hasRule_secondOnly,
      Reconciled.hasRule_both]
  all_goals repeat' split
  all_goals simp

theorem StringChange.hasRule_transform (c d : StringChange) : (c.transform d).HasRule := by
  cases c <;> cases d <;>
    simp only [StringChange.transform, insertRemove, Reconciled.hasRule_swap,
      Reconciled.hasRule_firstWins, Reconciled.hasRule_firstOnly, Reconciled.hasRule_secondOnly]
  all_goals repeat' split
  all_goals simp

theorem ObjectChange.hasRule_onProperty (prop : String) (c d : ObjectChange) :
    (onProperty prop c d).HasRule := by
  cases c <;> cases d <;> simp [onProperty]

theorem ObjectChange.hasRule_transform (c d : ObjectChange) : (c.transform d).HasRule := by
  unfold transform
  repeat' split
  all_goals simp [hasRule_onProperty]

theorem NumberChange.hasRule_transform (c d : NumberChange) : (c.transform d).HasRule := by
  cases c <;> cases d <;> simp [NumberChange.transform]

namespace Change

theorem hasRule_transform {c d : Change} (h : c.family = d.family) : (c.transform d).HasRule := by
  cases c with
  | array c =>
      cases d with
      | array d => simpa [transform] using c.hasRule_transform d
      | _ => cases h
  | string c =>
      cases d with
      | string d => simpa [transform] using c.hasRule_transform d
      | _ => cases h
  | object c =>
      cases d with
      | object d => simpa [transform] using c.hasRule_transform d
      | _ => cases h
  | number c =>
      cases d with
      | number d => simpa [transform] using c.hasRule_transform d
      | _ => cases h
  | booleanSet a =>
      cases d with
      | booleanSet b => simp [transform]
      | _ => cases h
  | dateSet m =>
      cases d with
      | dateSet n => simp [transform]
      | _ => cases h

theorem transform_of_family_ne {c d : Change} (h : c.family ≠ d.family) :
    c.transform d = .error (.unsupported c.kind d.kind) := by
  cases c with
  | array =>
      cases d with
      | array => exact absurd rfl h
      | _ => rfl
  | string =>
      cases d with
      | string => exact absurd rfl h
      | _ => rfl
  | object =>
      cases d with
      | object => exact absurd rfl h
      | _ => rfl
  | number =>
      cases d with
      | number => exact absurd rfl h
      | _ => rfl
  | booleanSet =>
      cases d with
      | booleanSet => exact absurd rfl h
      | _ => rfl
  | dateSet =>
      cases d with
      | dateSet => exact absurd rfl h
      | _ => rfl

/-- `ChangeKind.reconciles` says for which changes a rule is missing. -/
theorem transform_eq_unsupported_iff (c d : Change) :
    c.transform d = .error (.unsupported c.kind d.kind) ↔ c.kind.reconciles d.kind = false := by
  rw [ChangeKind.reconciles, family_kind, family_kind, beq_eq_false_iff_ne]
  exact ⟨fun he h => hasRule_transform h _ _ he, transform_of_family_ne⟩

end Change

end CoEdit
