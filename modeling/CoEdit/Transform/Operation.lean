import CoEdit.Transform.Array
import CoEdit.Transform.String
import CoEdit.Transform.Object

/-!
# Reconciling operations

Edits to different elements, and edits with nothing left to do, leave each other alone. Operations
are reconciled edit by edit: each edit of the first side passes through all edits of the second and
adjusts them on its way.
-/
namespace CoEdit

/-- What becomes of two concurrent changes to one number. Additions leave each other alone. -/
def NumberChange.transform : NumberChange → NumberChange → Reconciled NumberChange
  | .delta x, .delta y => .both (.delta x) (.delta y)
  | .set x, .set y => .firstWins (x == y) (.set x)
  | .set x, .delta _ => .firstOnly (.set x)
  | .delta _, .set y => .secondOnly (.set y)

def Change.transform : Change → Change → Reconciled Change
  | .array c, .array d => (c.transform d).lift .array
  | .string c, .string d => (c.transform d).lift .string
  | .object c, .object d => (c.transform d).lift .object
  | .number c, .number d => (c.transform d).lift .number
  | .booleanSet a, .booleanSet b => .firstWins (a == b) (.booleanSet a)
  | .dateSet m, .dateSet n => .firstWins (m == n) (.dateSet m)
  | c, d => .error (.unsupported c.kind d.kind)

namespace Edit

/-- Both edits adjusted by the rule for their changes, whatever they are aimed at and whether or not
they are inert. -/
def reconcile (s c : Edit) : Except TransformError (Edit × Edit) :=
  (s.change.transform c.change).map fun outcome => (s.after outcome.1, c.after outcome.2)

/-- Two concurrent edits, each adjusted so that it can follow the other. -/
def transform (s c : Edit) : Except TransformError (Edit × Edit) :=
  if s.inert || c.inert || s.target != c.target then .ok (s, c) else s.reconcile c

theorem transform_of_inert {s c : Edit} (h : s.inert = true ∨ c.inert = true) :
    s.transform c = .ok (s, c) := by
  rcases h with h | h <;> simp [transform, h]

theorem transform_of_target_ne {s c : Edit} (h : s.target ≠ c.target) :
    s.transform c = .ok (s, c) := by
  simp [transform, h]

/-- One edit taken through a list of concurrent ones. -/
def transformAll (s : Edit) : List Edit → Except TransformError (Edit × List Edit)
  | [] => .ok (s, [])
  | c :: rest => do
      let (s, c) ← s.transform c
      let (s, rest) ← s.transformAll rest
      return (s, c :: rest)

theorem length_transformAll {s s' : Edit} {cs cs' : List Edit}
    (h : s.transformAll cs = .ok (s', cs')) : cs'.length = cs.length := by
  induction cs generalizing s s' cs' with
  | nil =>
      cases h
      rfl
  | cons c rest ih =>
      simp only [transformAll, bind, Except.bind, pure, Except.pure] at h
      split at h
      · cases h
      · split at h
        · cases h
        · next hrest =>
            cases h
            simp [ih hrest]

end Edit

/-- Two concurrent lists of edits, each adjusted so that it can follow the other. -/
def transformLists : List Edit → List Edit → Except TransformError (List Edit × List Edit)
  | [], cs => .ok ([], cs)
  | s :: rest, cs => do
      let (s, cs) ← s.transformAll cs
      let (rest, cs) ← transformLists rest cs
      return (s :: rest, cs)

theorem length_transformLists {ss ss' cs cs' : List Edit}
    (h : transformLists ss cs = .ok (ss', cs')) :
    ss'.length = ss.length ∧ cs'.length = cs.length := by
  induction ss generalizing cs ss' cs' with
  | nil =>
      cases h
      exact ⟨rfl, rfl⟩
  | cons s rest ih =>
      simp only [transformLists, bind, Except.bind, pure, Except.pure] at h
      split at h
      · cases h
      · next hall =>
          split at h
          · cases h
          · next hrest =>
              cases h
              have hlen := ih hrest
              have hcs := Edit.length_transformAll hall
              exact ⟨by simp [hlen.1], by rw [hlen.2, hcs]⟩

/-- Two concurrent operations, each adjusted so that it can follow the other. Their shapes stay. -/
def Operation.transform (s c : Operation) : Except TransformError (Operation × Operation) := do
  let (first, second) ← transformLists s.edits c.edits
  return (s.reshape first, c.reshape second)

end CoEdit
