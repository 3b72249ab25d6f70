import CoEdit.Proofs.Agreement
import CoEdit.Proofs.Confluence.Joins
import CoEdit.Transform.Object
import Mathlib.Logic.Function.Basic

/-!
# Object rules join

For any two changes that fit one object, the answer of the rule joins the two edited objects
(`joins_transform`). The order of properties does not count, so an object is looked at as the map from
names to the ids of values. A property cannot be absent and present in one map, so no two changes that
both fit are found to be incompatible.
-/
namespace CoEdit.ObjectChange

abbrev Slots := String → Option ElementId

/-- The slots of a property list. -/
def slots (props : List (String × Element)) : Slots :=
  fun name => (Entries.find? name props).map Element.id

def edit? (props : Slots) : ObjectChange → Option Slots
  | .add prop value =>
      if (props prop).isNone then some (Function.update props prop (some value.id)) else none
  | .assign prop value =>
      if (props prop).isSome then some (Function.update props prop (some value.id)) else none
  | .remove prop =>
      if (props prop).isSome then some (Function.update props prop none) else none
  | .set values => some (slots values)

/-- A whole value repeats no name; the other changes need no law. -/
def Lawful : ObjectChange → Prop
  | .set values => Entries.Distinct values
  | _ => True

variable {props after₁ after₂ : Slots}

theorem slots_eq_of_sameProps {ps qs : List (String × Element)} (hps : Entries.Distinct ps)
    (hqs : Entries.Distinct qs) (h : Element.sameProps ps qs = true) : slots ps = slots qs := by
  have hagree := h
  simp only [Element.sameProps, Element.agreesContent] at hagree
  rw [Element.agreesProps_iff_find? hps hqs] at hagree
  funext name
  have hname := hagree name
  simp only [slots]
  generalize Entries.find? name ps = found, Entries.find? name qs = found' at hname ⊢
  cases hname with
  | some hxy => exact congrArg some (Element.id_eq_of_agrees hxy)
  | none => rfl

/-- What a change to the single property `prop` puts there, and whether it finds something there. -/
theorem edit?_of_prop? {c : ObjectChange} {prop : String} (h : c.prop? = some prop)
    (hc : edit? props c = some after₁) : ∃ slot,
      after₁ = Function.update props prop slot ∧
      ∀ other : Slots, other prop = props prop → edit? other c =
        some (Function.update other prop slot) := by
  cases c with
  | add p v =>
      cases h
      obtain ⟨hnone, rfl⟩ := Option.ite_some_none_eq_some.1 hc
      exact ⟨_, rfl, fun other hother => if_pos (by rw [hother]; exact hnone)⟩
  | assign p v =>
      cases h
      obtain ⟨hsome, rfl⟩ := Option.ite_some_none_eq_some.1 hc
      exact ⟨_, rfl, fun other hother => if_pos (by rw [hother]; exact hsome)⟩
  | remove p =>
      cases h
      obtain ⟨hsome, rfl⟩ := Option.ite_some_none_eq_some.1 hc
      exact ⟨_, rfl, fun other hother => if_pos (by rw [hother]; exact hsome)⟩
  | set values => cases h

/-- Changes to different properties commute. -/
theorem joins_of_prop?_ne {c d : ObjectChange} {p q : String} (hp : c.prop? = some p)
    (hq : d.prop? = some q) (hne : p ≠ q) (hc : edit? props c = some after₁)
    (hd : edit? props d = some after₂) :
    (Reconciled.both c d).Joins edit? after₁ after₂ := by
  obtain ⟨slot₁, rfl, hc'⟩ := edit?_of_prop? hp hc
  obtain ⟨slot₂, rfl, hd'⟩ := edit?_of_prop? hq hd
  refine Reconciled.joins_both (hd' _ (Function.update_of_ne hne.symm _ _)) ?_
  rw [hc' _ (Function.update_of_ne hne _ _), Function.update_comm hne]

theorem edit?_assign {prop : String} {value : Element} {slot : ElementId} :
    edit? (Function.update props prop (some slot)) (.assign prop value) =
      some (Function.update props prop (some value.id)) := by
  simp [edit?]

theorem edit?_add {prop : String} {value : Element} :
    edit? (Function.update props prop none) (.add prop value) =
      some (Function.update props prop (some value.id)) := by
  simp [edit?]

/-- Two changes to one property: the first of two values wins, and a value wins over a removal. -/
theorem joins_onProperty {c d : ObjectChange} {prop : String} (hp : c.prop? = some prop)
    (hq : d.prop? = some prop) (hc : edit? props c = some after₁)
    (hd : edit? props d = some after₂) :
    (onProperty prop c d).Joins edit? after₁ after₂ := by
  have hwins {v w : Element} : (Reconciled.firstWins (v == w) (ObjectChange.assign prop v)).Joins
      edit? (Function.update props prop (some v.id)) (Function.update props prop (some w.id)) :=
    Reconciled.joins_firstWins edit?_assign fun h => by rw [Element.id_eq_of_agrees h]
  cases c with
  | add p v =>
      cases hp
      obtain ⟨hnone, rfl⟩ := Option.ite_some_none_eq_some.1 hc
      cases d with
      | add q w =>
          cases hq
          obtain ⟨-, rfl⟩ := Option.ite_some_none_eq_some.1 hd
          exact hwins
      | assign q w =>
          cases hq
          obtain ⟨hsome, -⟩ := Option.ite_some_none_eq_some.1 hd
          simp [Option.isNone_iff_eq_none.1 hnone] at hsome
      | remove q =>
          cases hq
          obtain ⟨hsome, -⟩ := Option.ite_some_none_eq_some.1 hd
          simp [Option.isNone_iff_eq_none.1 hnone] at hsome
      | set values => cases hq
  | assign p v =>
      cases hp
      obtain ⟨hsome, rfl⟩ := Option.ite_some_none_eq_some.1 hc
      cases d with
      | add q w =>
          cases hq
          obtain ⟨hnone, -⟩ := Option.ite_some_none_eq_some.1 hd
          simp [Option.isNone_iff_eq_none.1 hnone] at hsome
      | assign q w =>
          cases hq
          obtain ⟨-, rfl⟩ := Option.ite_some_none_eq_some.1 hd
          exact hwins
      | remove q =>
          cases hq
          obtain ⟨-, rfl⟩ := Option.ite_some_none_eq_some.1 hd
          exact Reconciled.joins_firstOnly edit?_add
      | set values => cases hq
  | remove p =>
      cases hp
      obtain ⟨hsome, rfl⟩ := Option.ite_some_none_eq_some.1 hc
      cases d with
      | add q w =>
          cases hq
          obtain ⟨hnone, -⟩ := Option.ite_some_none_eq_some.1 hd
          simp [Option.isNone_iff_eq_none.1 hnone] at hsome
      | assign q w =>
          cases hq
          obtain ⟨-, rfl⟩ := Option.ite_some_none_eq_some.1 hd
          exact Reconciled.joins_secondOnly edit?_add
      | remove q =>
          cases hq
          obtain ⟨-, rfl⟩ := Option.ite_some_none_eq_some.1 hd
          exact Reconciled.joins_neither rfl
      | set values => cases hq
  | set values => cases hp

theorem transform_of_prop? {c d : ObjectChange} {p q : String} (hp : c.prop? = some p)
    (hq : d.prop? = some q) :
    c.transform d = if p = q then onProperty p c d else .both c d := by
  cases c with
  | set => cases hp
  | _ =>
      cases d with
      | set => cases hq
      | _ =>
          cases hp
          cases hq
          rfl

theorem exists_prop? {c : ObjectChange} (h : ∀ values, c ≠ .set values) :
    ∃ prop, c.prop? = some prop := by
  cases c with
  | set values => exact absurd rfl (h values)
  | _ => exact ⟨_, rfl⟩

/-- Whatever two changes were made to one object, the rule joins the results. -/
theorem joins_transform {c d : ObjectChange} (hc : c.Lawful) (hd : d.Lawful)
    (h₁ : edit? props c = some after₁) (h₂ : edit? props d = some after₂) :
    (c.transform d).Joins edit? after₁ after₂ := by
  by_cases hcset : ∃ ps, c = .set ps
  · obtain ⟨ps, rfl⟩ := hcset
    cases h₁
    cases d with
    | set qs =>
        cases h₂
        exact Reconciled.joins_firstWins rfl (slots_eq_of_sameProps hc hd)
    | _ => exact Reconciled.joins_firstOnly rfl
  · by_cases hdset : ∃ qs, d = .set qs
    · obtain ⟨qs, rfl⟩ := hdset
      cases h₂
      cases c with
      | set ps => exact absurd ⟨ps, rfl⟩ hcset
      | _ => exact Reconciled.joins_secondOnly rfl
    · obtain ⟨p, hp⟩ := exists_prop? fun ps h => hcset ⟨ps, h⟩
      obtain ⟨q, hq⟩ := exists_prop? fun qs h => hdset ⟨qs, h⟩
      rw [transform_of_prop? hp hq]
      split_ifs with hpq
      · subst hpq
        exact joins_onProperty hp hq h₁ h₂
      · exact joins_of_prop?_ne hp hq hpq h₁ h₂

/-! ## What a rule returns -/

structure Rebased (change left : ObjectChange) : Prop where
  lawful : left.Lawful
  payload : left.payload = change.payload

theorem keeps_onProperty {c d : ObjectChange} {prop : String} (hc : c.Lawful) (hd : d.Lawful) :
    (onProperty prop c d).Keeps (Rebased c) (Rebased d) := by
  cases c <;> cases d <;> simp only [onProperty] <;>
    first
    | exact Reconciled.keeps_error _
    | exact Reconciled.keeps_neither
    | exact Reconciled.keeps_firstWins ⟨trivial, rfl⟩
    | exact Reconciled.keeps_firstOnly ⟨trivial, rfl⟩
    | exact Reconciled.keeps_secondOnly ⟨trivial, rfl⟩
    | exact Reconciled.keeps_both ⟨hc, rfl⟩ ⟨hd, rfl⟩

theorem keeps_transform {c d : ObjectChange} (hc : c.Lawful) (hd : d.Lawful) :
    (c.transform d).Keeps (Rebased c) (Rebased d) := by
  by_cases hcset : ∃ ps, c = .set ps
  · obtain ⟨ps, rfl⟩ := hcset
    cases d with
    | set qs => exact Reconciled.keeps_firstWins ⟨hc, rfl⟩
    | _ => exact Reconciled.keeps_firstOnly ⟨hc, rfl⟩
  · by_cases hdset : ∃ qs, d = .set qs
    · obtain ⟨qs, rfl⟩ := hdset
      cases c with
      | set ps => exact absurd ⟨ps, rfl⟩ hcset
      | _ => exact Reconciled.keeps_secondOnly ⟨hd, rfl⟩
    · obtain ⟨p, hp⟩ := exists_prop? fun ps h => hcset ⟨ps, h⟩
      obtain ⟨q, hq⟩ := exists_prop? fun qs h => hdset ⟨qs, h⟩
      rw [transform_of_prop? hp hq]
      split_ifs with hpq
      · exact keeps_onProperty hc hd
      · exact Reconciled.keeps_both ⟨hc, rfl⟩ ⟨hd, rfl⟩

end CoEdit.ObjectChange
