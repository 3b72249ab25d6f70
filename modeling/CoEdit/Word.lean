/-!
# Words

Indices, versions and sequence numbers are words of 64 bits without a sign; dates have a sign. The
bounds are written out in full.
-/
namespace CoEdit

/-- How a program was built to treat a sum that is no word. -/
inductive Build where
  /-- It stops at the sum. -/
  | checked
  /-- It goes on with the word that is left of the sum. -/
  | unchecked
  deriving DecidableEq

namespace Word

def bound : Nat := 18446744073709551616

def signedBound : Nat := 9223372036854775808

/-- The word that an integer equals. -/
def ofInt? (i : Int) : Option Nat :=
  if 0 ≤ i ∧ i < bound then some i.toNat else none

/-- The integer, if it is a word with a sign. -/
def signed? (i : Int) : Option Int :=
  if -(signedBound : Int) ≤ i ∧ i < signedBound then some i else none

theorem ofInt?_natCast (n : Nat) : ofInt? n = if n < bound then some n else none := by
  by_cases h : n < bound
  · rw [ofInt?, if_pos ⟨by omega, by omega⟩, if_pos h, Int.toNat_natCast]
  · rw [ofInt?, if_neg (by omega), if_neg h]

/-- The sum of two words, unless the program stops at it. -/
def add? (build : Build) (a b : Nat) : Option Nat :=
  if a + b < bound then some (a + b)
  else match build with
    | .checked => none
    | .unchecked => some (a + b - bound)

def sub? (build : Build) (a b : Nat) : Option Nat :=
  if b ≤ a then some (a - b)
  else match build with
    | .checked => none
    | .unchecked => some (a + bound - b)

theorem add?_of_lt {a b : Nat} (h : a + b < bound) (build : Build) :
    add? build a b = some (a + b) :=
  if_pos h

theorem add?_checked_of_le {a b : Nat} (h : bound ≤ a + b) : add? .checked a b = none :=
  if_neg (Nat.not_lt.2 h)

end Word
end CoEdit
