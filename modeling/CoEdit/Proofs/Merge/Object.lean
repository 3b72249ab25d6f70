import CoEdit.Proofs.Merge.Meeting

/-!
# Merged objects

Two changes to properties of one object, made at the same time and reconciled, leave under every name what
the two wrote there (`settled`): a name that neither touches keeps its entry, a name that one of them touches
has what that one wrote, and of two changes to one name the first value stands (`Reachable.object_settles`).
The two orders are looked at apart, since they need not leave the entries at the same places.
-/
namespace CoEdit

namespace ObjectChange

variable {c d : ObjectChange} {name : String} {props after merged : List (String × Element)}
  {first second : Outcome ObjectChange}

/-- What a change writes under a name, if it touches it; a removal writes that nothing is there. -/
def writes? (name : String) : ObjectChange → Option (Option Element)
  | .add prop value => if prop = name then some (some value) else none
  | .assign prop value => if prop = name then some (some value) else none
  | .remove prop => if prop = name then some none else none
  | .set props => some (Entries.find? name props)

/-- What stands under a name after two changes, given what each of them wrote there and the entry `found`
from before: of two values the first, and a value rather than nothing. -/
def settled (first second : Option (Option Element)) (found : Option Element) : Option Element :=
  match first, second with
  | none, none => found
  | some written, none => written
  | none, some written => written
  | some written, some other => written.or other

/-- What is left of a change writes under a name; a change that was dropped writes nothing. -/
def leftWrites? (name : String) : Outcome ObjectChange → Option (Option Element)
  | .becomes change => change.writes? name
  | .dropped => none

theorem writes?_of_prop?_ne {prop : String} (h : c.prop? = some prop) (hne : prop ≠ name) :
    c.writes? name = none := by
  cases c <;> cases h <;> exact if_neg hne

/-- A change puts what it writes in place of what was there and leaves all other names alone. -/
theorem find?_of_applied? (hdistinct : Entries.Distinct props)
    (h : c.applied? (fun value => value) props = some after) (name : String) :
    Entries.find? name after = (c.writes? name).getD (Entries.find? name props) := by
  cases c with
  | add prop value =>
      obtain ⟨hprop, hafter⟩ := Option.ite_none_left_eq_some.1 h
      cases hafter
      rw [← Entries.put_of_not_mem hprop, Entries.find?_put, writes?]
      split_ifs <;> rfl
  | assign prop value =>
      obtain ⟨hprop, hafter⟩ := Option.ite_none_right_eq_some.1 h
      cases hafter
      rw [← Entries.put_of_mem hdistinct hprop, Entries.find?_put, writes?]
      split_ifs <;> rfl
  | remove prop =>
      obtain ⟨-, hafter⟩ := Option.ite_none_right_eq_some.1 h
      cases hafter
      rw [← Entries.erase, Entries.find?_erase, writes?]
      split_ifs <;> rfl
  | set values =>
      cases h
      rw [List.map_id']
      rfl

/-! ## What is left of two changes to properties -/

/-- A pair of outcomes by which, in either order, the two changes come to what they have settled. -/
def Settle (c d : ObjectChange) (first second : Outcome ObjectChange) : Prop :=
  ∀ name found,
    (leftWrites? name second).getD ((c.writes? name).getD found) =
        settled (c.writes? name) (d.writes? name) found ∧
      (leftWrites? name first).getD ((d.writes? name).getD found) =
        settled (c.writes? name) (d.writes? name) found

theorem settle_of_prop?_ne {p q : String} (hp : c.prop? = some p) (hq : d.prop? = some q)
    (hne : p ≠ q) : Settle c d (.becomes c) (.becomes d) := by
  intro name found
  by_cases hname : p = name
  · rw [leftWrites?, leftWrites?, writes?_of_prop?_ne hq (hname ▸ hne.symm)]
    cases c.writes? name <;> exact ⟨rfl, rfl⟩
  · rw [leftWrites?, leftWrites?, writes?_of_prop?_ne hp hname]
    cases d.writes? name <;> exact ⟨rfl, rfl⟩

/-- Of two changes to one property the first value stands. Two values that agree would leave both objects
as they are, so the values must differ. -/
theorem settle_onProperty {prop : String} (hp : c.prop? = some prop) (hq : d.prop? = some prop)
    (hdiffer : ∀ v ∈ c.payload, ∀ w ∈ d.payload, (v == w) = false)
    (h : onProperty prop c d = .ok (first, second)) : Settle c d first second := by
  intro name found
  have hwins {v w : Element} (hv : v ∈ c.payload) (hw : w ∈ d.payload)
      (h : Reconciled.firstWins (v == w) (assign prop v) = .ok (first, second)) :
      first = .becomes (.assign prop v) ∧ second = .dropped := by
    rw [hdiffer v hv w hw] at h
    cases h
    exact ⟨rfl, rfl⟩
  cases c <;> cases hp <;> cases d <;> cases hq <;> simp only [onProperty] at h
  case add.refl.add.refl v w =>
    obtain ⟨rfl, rfl⟩ := hwins (by simp [payload]) (by simp [payload]) h
    by_cases hname : prop = name <;> simp [leftWrites?, writes?, settled, hname]
  case assign.refl.assign.refl v w =>
    obtain ⟨rfl, rfl⟩ := hwins (by simp [payload]) (by simp [payload]) h
    by_cases hname : prop = name <;> simp [leftWrites?, writes?, settled, hname]
  all_goals
    cases h
    try by_cases hname : prop = name <;> simp [leftWrites?, writes?, settled, hname]

theorem settle_transform (hc : ∀ values, c ≠ .set values) (hd : ∀ values, d ≠ .set values)
    (hdiffer : ∀ v ∈ c.payload, ∀ w ∈ d.payload, (v == w) = false)
    (h : c.transform d = .ok (first, second)) : Settle c d first second := by
  obtain ⟨p, hp⟩ := exists_prop? hc
  obtain ⟨q, hq⟩ := exists_prop? hd
  rw [transform_of_prop? hp hq] at h
  split_ifs at h with hpq
  · subst hpq
    exact settle_onProperty hp hq hdiffer h
  · cases h
    exact settle_of_prop?_ne hp hq hpq

/-! ## The merged object -/

/-- Under every name the object `merged` has what two changes to the object `props` have settled. -/
structure Settled (props : List (String × Element)) (c d : ObjectChange)
    (merged : List (String × Element)) : Prop where
  distinct : Entries.Distinct merged
  find?_eq : ∀ name, Entries.find? name merged =
    settled (c.writes? name) (d.writes? name) (Entries.find? name props)

/-- What is made of an object by one change and by what is left of another one. -/
theorem find?_of_follow (hdistinct : Entries.Distinct props) (hlawful : c.Lawful)
    (hleft : second.All (Rebased d)) (hafter : c.applied? (fun value => value) props = some after)
    (h : second.follow (applied? fun value => value) after = some merged) :
    Entries.Distinct merged ∧ ∀ name, Entries.find? name merged =
      (leftWrites? name second).getD ((c.writes? name).getD (Entries.find? name props)) := by
  have hkeyed := distinct_applied? hdistinct hlawful hafter
  cases second with
  | becomes left =>
      refine ⟨distinct_applied? hkeyed hleft.lawful h, fun name => ?_⟩
      rw [find?_of_applied? hkeyed h, find?_of_applied? hdistinct hafter]
      rfl
  | dropped =>
      cases h
      exact ⟨hkeyed, find?_of_applied? hdistinct hafter⟩

end ObjectChange

namespace Document
open ObjectChange

variable {doc first second : Document} {a b : Edit} {c d : ObjectChange}
  {props : List (String × Element)}

/-- Two edits of properties of one object can be reconciled, and in either order they leave under every
name what the two have settled. -/
theorem Reachable.object_settles (hdoc : doc.Reachable) (h : doc.Meet a b first second)
    (ha : a.change = .object c) (hb : b.change = .object d) (hc : ∀ values, c ≠ .set values)
    (hd : ∀ values, d ≠ .set values)
    (hprops : .mk a.target (.object props) ∈ doc.snapshot.preorder) : ∃ a' b' merged merged',
      doc.Merges a b a' b' first second (.object props) (.object merged) (.object merged') ∧
      Settled props c d merged ∧ Settled props c d merged' := by
  have hdiffer : ∀ v ∈ c.payload, ∀ w ∈ d.payload, (v == w) = false := fun v hv w hw =>
    h.not_agrees_of_mem_payload (by rwa [ha]) (by rwa [hb])
  have hlawful : (Change.object c).Lawful := ha ▸ h.regular.lawful
  have hlawful' : (Change.object d).Lawful := hb ▸ h.regular'.lawful
  obtain ⟨m⟩ := h.exists_meeting hdoc.sound Facet.object ha hb hprops
  have hsettle := settle_transform hc hd hdiffer m.rule
  obtain ⟨hkeeps, hkeeps'⟩ := keeps_transform hlawful hlawful' _ _ m.rule
  obtain ⟨hdistinct, hmerged⟩ := find?_of_follow m.keyed hlawful hkeeps' m.edit m.follow
  obtain ⟨hdistinct', hmerged'⟩ := find?_of_follow m.keyed hlawful' hkeeps m.edit' m.follow'
  exact ⟨_, _, _, _, m.merges, ⟨hdistinct, fun name => (hmerged name).trans (hsettle name _).1⟩,
    ⟨hdistinct', fun name => (hmerged' name).trans (hsettle name _).2⟩⟩

def dropTitle : Edit :=
  ⟨"sheet", .object (.remove "title"), false⟩

def retitle : Edit :=
  ⟨"sheet", .object (.assign "title" (.mk "heading" (.string "Cd"))), false⟩

/-- The new title stands, though it comes second, and the total is as it was. -/
theorem object_settles_sheet : ∃ first second a' b' props merged merged',
    sheet.Merges dropTitle retitle a' b' first second (.object props) (.object merged)
      (.object merged') ∧
    Entries.find? "title" merged = some (.mk "heading" (.string "Cd")) ∧
    Entries.find? "title" merged' = some (.mk "heading" (.string "Cd")) ∧
    Entries.find? "total" merged = some (.mk "total" (.number 0.1)) := by
  have hmeet : ∃ first second, sheet.Meet dropTitle retitle first second :=
    ⟨_, _, rfl, (by decide : dropTitle.change.Legal).regular,
      (by decide : retitle.change.Legal).regular, by decide, by decide, ⟨_, rfl⟩, ⟨_, rfl⟩⟩
  obtain ⟨first, second, hmeet⟩ := hmeet
  obtain ⟨a', b', merged, merged', hmerges, hsettled, hsettled'⟩ :=
    Reachable.object_settles reachable_sheet hmeet rfl rfl nofun nofun (.head _)
  exact ⟨first, second, a', b', _, merged, merged', hmerges, hsettled.find?_eq _,
    hsettled'.find?_eq _, hsettled.find?_eq _⟩

end Document
end CoEdit
