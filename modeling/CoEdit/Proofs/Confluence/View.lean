import CoEdit.Proofs.Confluence.Array
import CoEdit.Proofs.Confluence.Object
import CoEdit.Proofs.Confluence.String
import CoEdit.Proofs.Magnitude
import CoEdit.Transform.Coverage

/-!
# What an element shows

The view of an element is what two documents must have in common there in order to agree: which
children it has, but not what they hold; a number up to the sign of zero; the properties, but not their
order. A change that fits acts on the view alone, and the rules for all kinds of elements join views
(`Change.joins_transform`).
-/
namespace CoEdit

/-- An element as it is compared, without its children. -/
inductive View where
  | null
  | string (text : String)
  | number (magnitude : Float.Model.UnpackedFloat)
  | boolean (value : Bool)
  | date (millis : Int)
  | array (items : List ElementId)
  | object (props : ObjectChange.Slots)

/-- What a node shows. -/
def Content.view : Content ElementId → View
  | .null => .null
  | .string text => .string text
  | .number value => .number (Number.magnitude value)
  | .boolean value => .boolean value
  | .date millis => .date millis
  | .array items => .array items
  | .object props => .object fun name => Entries.find? name props

/-- What the root of a tree shows. -/
def Element.view (element : Element) : View :=
  (element.content.map Element.id).view

def View.edit? : View → Change → Option View
  | .array items, .array c => (c.edit? items).map .array
  | .string text, .string c => (c.edit? text).map .string
  | .object props, .object c => (c.edit? props).map .object
  | .number m, .number (.delta amount) => some (.number (Number.raise amount m))
  | .number _, .number (.set value) => some (.number (Number.magnitude value))
  | .boolean _, .booleanSet value => some (.boolean value)
  | .date _, .dateSet millis => some (.date millis)
  | _, _ => none

/-- No property name occurs twice. -/
def Content.Keyed {α : Type} : Content α → Prop
  | .object props => Entries.Distinct props
  | _ => True

instance {α : Type} (content : Content α) : Decidable content.Keyed := by
  unfold Content.Keyed
  split <;> infer_instance

/-- No object of the tree has two properties of one name. -/
def Element.Keyed (element : Element) : Prop :=
  ∀ x ∈ element.preorder, x.content.Keyed

instance (element : Element) : Decidable element.Keyed :=
  inferInstanceAs (Decidable (∀ x ∈ element.preorder, x.content.Keyed))

def Content.Finite {α : Type} : Content α → Prop
  | .number x => x.isFinite = true
  | _ => True

theorem Element.firstNonFinite?_eq_none_iff {tree : Element} :
    tree.firstNonFinite? = none ↔ ∀ x ∈ tree.preorder, x.content.Finite := by
  rw [firstNonFinite?, List.findSome?_eq_none_iff]
  refine forall₂_congr fun x _ => ?_
  cases x.content <;> simp [Content.Finite]

namespace Change

def isDelta : Change → Bool
  | .number (.delta _) => true
  | _ => false

/-- What the rules rely on: a reorder is a permutation and a whole object repeats no name. -/
def Lawful : Change → Prop
  | .array c => c.Lawful
  | .object c => c.Lawful
  | _ => True

/-- What every change is made of: finite numbers, reorders that are permutations, and objects in which
no name occurs twice. -/
structure Legal (change : Change) : Prop where
  valid : change.validate = .ok ()
  keyed : ∀ value ∈ change.payload, value.Keyed
  named : ∀ props, change = .object (.set props) → Entries.Distinct props

theorem validate_eq_ok_iff (change : Change) : change.validate = .ok () ↔
    change.firstNonFinite? = none ∧
      ∀ order, change = .array (.reorder order) → Reorder.isPermutation order = true := by
  unfold validate
  split
  · next h => simp [h]
  · next order h =>
      rw [h]
      split_ifs with hlaw
      · simp [hlaw]
      · simp [hlaw]
  · next hne h =>
      rw [h]
      simp only [true_and, true_iff]
      intro order heq
      exact absurd heq (hne order)

theorem Legal.lawful {change : Change} (h : change.Legal) : change.Lawful := by
  cases change with
  | array c =>
      cases c with
      | reorder order => exact ((validate_eq_ok_iff _).1 h.valid).2 order rfl
      | _ => trivial
  | object c =>
      cases c with
      | set props => exact h.named props rfl
      | _ => trivial
  | _ => trivial

theorem Legal.finite {change : Change} (h : change.Legal) : change.firstNonFinite? = none :=
  ((validate_eq_ok_iff change).1 h.valid).1

theorem firstNonFinite?_eq_none_iff {change : Change} : change.firstNonFinite? = none ↔
    (∀ c, change = .number c → c.amount.isFinite = true) ∧
      ∀ value ∈ change.payload, value.firstNonFinite? = none := by
  cases change with
  | array c | object c => simp [firstNonFinite?, List.findSome?_eq_none_iff]
  | number c => simp [firstNonFinite?, payload]
  | _ => simp [firstNonFinite?, payload]

theorem finite_payload {change : Change} (h : change.firstNonFinite? = none) :
    ∀ value ∈ change.payload, value.firstNonFinite? = none :=
  (firstNonFinite?_eq_none_iff.1 h).2

theorem finite_amount {c : NumberChange} (h : (Change.number c).firstNonFinite? = none) :
    c.amount.isFinite = true :=
  (firstNonFinite?_eq_none_iff.1 h).1 c rfl

theorem legal_iff (change : Change) : change.Legal ↔ change.firstNonFinite?.isNone = true ∧
    (∀ value ∈ change.payload, value.Keyed) ∧ change.Lawful := by
  rw [Option.isNone_iff_eq_none]
  refine ⟨fun h => ⟨h.finite, h.keyed, h.lawful⟩, fun h => ⟨?_, h.2.1, ?_⟩⟩
  · rw [validate_eq_ok_iff]
    refine ⟨h.1, fun order heq => ?_⟩
    rw [heq] at h
    exact h.2.2
  · intro props heq
    rw [heq] at h
    exact h.2.2

instance (change : Change) : Decidable change.Lawful := by
  unfold Lawful
  split
  · unfold ArrayChange.Lawful
    split <;> infer_instance
  · unfold ObjectChange.Lawful
    split <;> infer_instance
  · infer_instance

instance (change : Change) : Decidable change.Legal :=
  decidable_of_iff _ change.legal_iff.symm

/-- Whatever two changes were made to one element, the rule joins what the results show. Two additions
to one number are left out, for they commute only up to rounding. -/
theorem joins_transform {c d : Change} {view after₁ after₂ : View} (hc : c.Lawful) (hd : d.Lawful)
    (hdelta : ¬(c.isDelta = true ∧ d.isDelta = true)) (h₁ : view.edit? c = some after₁)
    (h₂ : view.edit? d = some after₂) : (c.transform d).Joins View.edit? after₁ after₂ := by
  cases view with
  | null => cases h₁
  | string text =>
      cases c with
      | string c =>
          cases d with
          | string d =>
              obtain ⟨s, hs, rfl⟩ := Option.map_eq_some_iff.1 h₁
              obtain ⟨t, ht, rfl⟩ := Option.map_eq_some_iff.1 h₂
              exact (StringChange.joins_transform hs ht).lift fun _ _ => rfl
          | _ => cases h₂
      | _ => cases h₁
  | number m =>
      cases c with
      | number c =>
          cases d with
          | number d =>
              cases c with
              | delta x =>
                  cases d with
                  | delta y => exact absurd ⟨rfl, rfl⟩ hdelta
                  | set y =>
                      cases h₁
                      cases h₂
                      exact Reconciled.joins_secondOnly rfl
              | set x =>
                  cases h₁
                  cases d with
                  | delta y =>
                      cases h₂
                      exact Reconciled.joins_firstOnly rfl
                  | set y =>
                      cases h₂
                      have hwins : (Reconciled.firstWins (x == y) (NumberChange.set x)).lift
                          Change.number =
                          Reconciled.firstWins (x == y) (Change.number (.set x)) := by
                        cases x == y <;> rfl
                      change ((Reconciled.firstWins (x == y) (NumberChange.set x)).lift _).Joins _ _ _
                      rw [hwins]
                      exact Reconciled.joins_firstWins rfl fun h =>
                        congrArg View.number ((Number.beq_iff_magnitude x y).1 h).2
          | _ => cases h₂
      | _ => cases h₁
  | boolean value =>
      cases c with
      | booleanSet a =>
          cases d with
          | booleanSet b =>
              cases h₁
              cases h₂
              exact Reconciled.joins_firstWins rfl fun h => by rw [beq_iff_eq.1 h]
          | _ => cases h₂
      | _ => cases h₁
  | date millis =>
      cases c with
      | dateSet m =>
          cases d with
          | dateSet n =>
              cases h₁
              cases h₂
              exact Reconciled.joins_firstWins rfl fun h => by rw [beq_iff_eq.1 h]
          | _ => cases h₂
      | _ => cases h₁
  | array items =>
      cases c with
      | array c =>
          cases d with
          | array d =>
              obtain ⟨xs, hxs, rfl⟩ := Option.map_eq_some_iff.1 h₁
              obtain ⟨ys, hys, rfl⟩ := Option.map_eq_some_iff.1 h₂
              exact (ArrayChange.joins_transform hc hd hxs hys).lift fun _ _ => rfl
          | _ => cases h₂
      | _ => cases h₁
  | object props =>
      cases c with
      | object c =>
          cases d with
          | object d =>
              obtain ⟨ps, hps, rfl⟩ := Option.map_eq_some_iff.1 h₁
              obtain ⟨qs, hqs, rfl⟩ := Option.map_eq_some_iff.1 h₂
              exact (ObjectChange.joins_transform hc hd hps hqs).lift fun _ _ => rfl
          | _ => cases h₂
      | _ => cases h₁

/-! ## What a rule returns -/

/-- What is left of a change is as legal and as lawful as the change, brings along what the change
brought along, and adds to a number if the change did. -/
structure Rebased (change left : Change) : Prop where
  legal : change.Legal → left.Legal
  lawful : change.Lawful → left.Lawful
  payload : left.payload = change.payload
  isDelta : left.isDelta = change.isDelta

theorem Rebased.refl (change : Change) : change.Rebased change := ⟨id, id, rfl, rfl⟩

theorem Rebased.trans {a b c : Change} (h₁ : a.Rebased b) (h₂ : b.Rebased c) : a.Rebased c :=
  ⟨fun h => h₂.legal (h₁.legal h), fun h => h₂.lawful (h₁.lawful h), h₂.payload.trans h₁.payload,
    h₂.isDelta.trans h₁.isDelta⟩

theorem rebased_array {c left : ArrayChange} (h : c.Rebased left) :
    (Change.array c).Rebased (.array left) := by
  refine ⟨fun hc => ⟨?_, ?_, ?_⟩, fun _ => h.lawful, h.payload, rfl⟩
  · rw [validate_eq_ok_iff]
    constructor
    · have hfinite := hc.finite
      simp only [firstNonFinite?, Change.payload] at hfinite ⊢
      rwa [h.payload]
    · intro order heq
      cases heq
      exact h.lawful
  · intro value hvalue
    rw [Change.payload, h.payload] at hvalue
    exact hc.keyed value hvalue
  · intro props heq
    cases heq

theorem rebased_object {c left : ObjectChange} (h : c.Rebased left) :
    (Change.object c).Rebased (.object left) := by
  refine ⟨fun hc => ⟨?_, ?_, ?_⟩, fun _ => h.lawful, h.payload, rfl⟩
  · rw [validate_eq_ok_iff]
    constructor
    · have hfinite := hc.finite
      simp only [firstNonFinite?, Change.payload] at hfinite ⊢
      rwa [h.payload]
    · intro order heq
      cases heq
  · intro value hvalue
    rw [Change.payload, h.payload] at hvalue
    exact hc.keyed value hvalue
  · intro props heq
    cases heq
    exact h.lawful

theorem rebased_string (c left : StringChange) : (Change.string c).Rebased (.string left) := by
  refine ⟨fun _ => ⟨rfl, ?_, ?_⟩, fun _ => trivial, rfl, rfl⟩
  · intro value hvalue
    cases hvalue
  · intro props heq
    cases heq

/-- What a rule leaves of two lawful changes is as lawful and as legal as they are, and nothing that was
brought along is exchanged. -/
theorem keeps_transform {c d : Change} (hc : c.Lawful) (hd : d.Lawful) :
    (c.transform d).Keeps c.Rebased d.Rebased := by
  by_cases hfamily : c.family = d.family
  · cases c with
    | array c =>
        cases d with
        | array d =>
            exact (ArrayChange.keeps_transform hc hd).lift
              (fun _ => rebased_array) fun _ => rebased_array
        | _ => cases hfamily
    | string c =>
        cases d with
        | string d =>
            have hall : (c.transform d).Keeps (fun _ => True) fun _ => True := by
              intro first second _
              cases first <;> cases second <;> exact ⟨trivial, trivial⟩
            exact hall.lift (fun left _ => rebased_string c left)
              fun left _ => rebased_string d left
        | _ => cases hfamily
    | object c =>
        cases d with
        | object d =>
            exact (ObjectChange.keeps_transform hc hd).lift
              (fun _ => rebased_object) fun _ => rebased_object
        | _ => cases hfamily
    | number c =>
        cases d with
        | number d =>
            have hall : (c.transform d).Keeps (· = c) (· = d) := by
              cases c <;> cases d
              · exact Reconciled.keeps_both rfl rfl
              · exact Reconciled.keeps_secondOnly rfl
              · exact Reconciled.keeps_firstOnly rfl
              · exact Reconciled.keeps_firstWins rfl
            exact hall.lift (fun _ heq => heq ▸ Rebased.refl _) fun _ heq => heq ▸ Rebased.refl _
        | _ => cases hfamily
    | booleanSet a =>
        cases d with
        | booleanSet b => exact Reconciled.keeps_firstWins (Rebased.refl _)
        | _ => cases hfamily
    | dateSet m =>
        cases d with
        | dateSet n => exact Reconciled.keeps_firstWins (Rebased.refl _)
        | _ => cases hfamily
  · rw [transform_of_family_ne hfamily]
    exact Reconciled.keeps_error _

end Change

theorem Edit.make_of_legal {edit : Edit} (h : edit.change.Legal) :
    make edit.target edit.change = .ok (edit.withInert false) := by
  rw [make, h.valid]
  rfl

end CoEdit
