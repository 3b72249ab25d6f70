/-!
# Characters that are ignored in display

A character is default ignorable when a display that has no glyph for it shows nothing at all:
joiners, variation selectors, tags, and letters such as the Hangul fillers that only keep a place.
The table lists the maximal runs of code points with the `Default_Ignorable_Code_Point` property in
ascending order.
-/
namespace CoEdit.Text

/-- First and last code point of each run of default ignorable characters. -/
def defaultIgnorableRanges : List (Nat × Nat) := [
  (0xAD, 0xAD), (0x34F, 0x34F), (0x61C, 0x61C), (0x115F, 0x1160), (0x17B4, 0x17B5),
  (0x180B, 0x180F), (0x200B, 0x200F), (0x202A, 0x202E), (0x2060, 0x206F), (0x3164, 0x3164),
  (0xFE00, 0xFE0F), (0xFEFF, 0xFEFF), (0xFFA0, 0xFFA0), (0xFFF0, 0xFFF8), (0x1BCA0, 0x1BCA3),
  (0x1D173, 0x1D17A), (0xE0000, 0xE0FFF)]

def isDefaultIgnorable (c : Char) : Bool :=
  defaultIgnorableRanges.any fun r => r.1 ≤ c.toNat && c.toNat ≤ r.2

example : isDefaultIgnorable '\u1100' = false ∧ isDefaultIgnorable '\u1160' = true := by
  decide +kernel

end CoEdit.Text
