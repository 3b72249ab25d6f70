import CoEdit.Transform.Basic

/-!
# Object rules

Changes to different properties commute. On one property the first of two values wins, and a value
wins over a removal by being added again. A property that one side adds and the other overwrites or
removes was absent for one and present for the other, which no common object allows.
-/
namespace CoEdit.ObjectChange

/-- The property that a change touches; a whole-value change touches none in particular. -/
def prop? : ObjectChange → Option String
  | .add prop _ => some prop
  | .assign prop _ => some prop
  | .remove prop => some prop
  | .set _ => none

def onProperty (prop : String) : ObjectChange → ObjectChange → Reconciled ObjectChange
  | .add _ v, .add _ w => .firstWins (v == w) (.assign prop v)
  | .add .., .assign .. => .error (.incompatible .objectAdd .objectAssign prop)
  | .add .., .remove .. => .error (.incompatible .objectAdd .objectRemove prop)
  | .assign .., .add .. => .error (.incompatible .objectAdd .objectAssign prop)
  | .assign _ v, .assign _ w => .firstWins (v == w) (.assign prop v)
  | .assign _ v, .remove .. => .firstOnly (.add prop v)
  | .remove .., .add .. => .error (.incompatible .objectAdd .objectRemove prop)
  | .remove .., .assign _ w => .secondOnly (.add prop w)
  | .remove .., .remove .. => .neither
  | c, d => .both c d

def transform (c d : ObjectChange) : Reconciled ObjectChange :=
  match c, d with
  | .set ps, .set qs => .firstWins (Element.sameProps ps qs) (.set ps)
  | .set ps, _ => .firstOnly (.set ps)
  | _, .set qs => .secondOnly (.set qs)
  | _, _ =>
      match c.prop?, d.prop? with
      | some p, some q => if p = q then onProperty p c d else .both c d
      | _, _ => .both c d

end CoEdit.ObjectChange
