import CoEdit.Transform.Basic
import CoEdit.Position
import CoEdit.Text.Splice

/-!
# Text rules

Text goes in and comes out by spans of characters. Text put strictly inside a span that the other
side removes is removed with it; where two spans overlap, each side keeps the characters that the
other left alone.
-/
namespace CoEdit.StringChange

/-- An insertion at `i` beside a removal from `j` on. -/
def insertRemove (i : Nat) (piece : String) (j : Nat) (gone : String) : Reconciled StringChange :=
  if i ≤ j then
    .both (.insert i piece) (.remove (Position.afterInsert i piece.length j) gone)
  else if j + gone.length ≤ i then
    .both (.insert (Position.afterRemove j gone.length i) piece) (.remove j gone)
  else .secondOnly (.remove j (Text.insert (i - j) piece gone))

/-- The characters of `text`, which starts at `start`, outside the span from `low` to `high`. -/
def outside (start : Nat) (text : String) (low high : Nat) : String :=
  String.ofList (text.toList.take (low - start) ++ text.toList.drop (high - start))

/-- The removal of `text` from `start` on, once the characters from `low` to `high` are gone. -/
def shrink (start : Nat) (text : String) (low high : Nat) : Outcome StringChange :=
  let kept := outside start text low high
  if kept = "" then .dropped else .becomes (.remove (min start low) kept)

def transform : StringChange → StringChange → Reconciled StringChange
  | .set s, .set t => .firstWins (s == t) (.set s)
  | .set s, _ => .firstOnly (.set s)
  | _, .set t => .secondOnly (.set t)
  | .insert i s, .insert j t =>
      if i ≤ j then .both (.insert i s) (.insert (Position.afterInsert i s.length j) t)
      else .both (.insert (Position.afterInsert j t.length i) s) (.insert j t)
  | .insert i s, .remove j t => insertRemove i s j t
  | .remove i s, .insert j t => (insertRemove j t i s).swap
  | .remove i s, .remove j t =>
      if i + s.length ≤ j then
        .both (.remove i s) (.remove (Position.afterRemove i s.length j) t)
      else if j + t.length ≤ i then
        .both (.remove (Position.afterRemove j t.length i) s) (.remove j t)
      else .ok (shrink i s j (j + t.length), shrink j t i (i + s.length))

end CoEdit.StringChange
