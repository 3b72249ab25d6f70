import CoEdit.Digits
import CoEdit.Path.Basic
import CoEdit.Word

/-!
# Pointers

A pointer writes a path as text: every step is preceded by a slash, and inside a key `~0` stands for
a tilde and `~1` for a slash. The text cannot tell an index from a key of digits, so a segment that
is a decimal without needless zeros and fits 64 bits is read as an index and any other as a key.
-/
namespace CoEdit.Path.Pointer

/-- The characters of a key with its tildes and slashes escaped. -/
def escape : List Char → List Char
  | [] => []
  | '~' :: rest => '~' :: '0' :: escape rest
  | '/' :: rest => '~' :: '1' :: escape rest
  | c :: rest => c :: escape rest

/-- The characters that an escaped segment stands for; a tilde that starts no escape stays. -/
def unescape : List Char → List Char
  | [] => []
  | '~' :: '0' :: rest => '~' :: unescape rest
  | '~' :: '1' :: rest => '/' :: unescape rest
  | c :: rest => c :: unescape rest

/-- The segments between slashes; a text without a slash is one segment. -/
def segments : List Char → List (List Char)
  | [] => [[]]
  | c :: rest =>
      if c = '/' then [] :: segments rest
      else match segments rest with
        | [] => [[c]]
        | first :: others => (c :: first) :: others

/-- A decimal without needless zeros: one or more digits, the first no zero unless it is alone. -/
def isCanonicalIndex : List Char → Bool
  | [] => false
  | ['0'] => true
  | '0' :: _ => false
  | digits => digits.all Char.isDigit

/-- The step that an unescaped segment names. -/
def stepOf (segment : List Char) : Step :=
  if isCanonicalIndex segment && Digits.ofDecimal segment < Word.bound then .index (Digits.ofDecimal segment)
  else .key (String.ofList segment)

/-- The segment of a step. -/
def segmentOf : Step → List Char
  | .index i => Nat.toDigits 10 i
  | .key k => escape k.toList

/-- Reads the characters of a pointer. The slash in front of the first segment may be missing. -/
def ofChars : List Char → Path
  | [] => []
  | '/' :: rest => (segments rest).map fun s => stepOf (unescape s)
  | cs => (segments cs).map fun s => stepOf (unescape s)

def toChars (path : Path) : List Char :=
  path.flatMap fun step => '/' :: segmentOf step

theorem unescape_escape (cs : List Char) : unescape (escape cs) = cs := by
  induction cs using escape.induct with
  | case1 => rfl
  | case2 rest ih => simp [escape, unescape, ih]
  | case3 rest ih => simp [escape, unescape, ih]
  | case4 c rest hc hs ih =>
      rw [escape.eq_4 c rest hc hs, unescape.eq_4, ih]
      · intro r h _
        exact hc h
      · intro r h _
        exact hc h

/-- Escaped text holds no slash, so segments never run into each other. -/
theorem slash_not_mem_escape (cs : List Char) : '/' ∉ escape cs := by
  induction cs using escape.induct with
  | case1 => simp [escape]
  | case2 rest ih => simp [escape, ih]
  | case3 rest ih => simp [escape, ih]
  | case4 c rest hc hs ih =>
      rw [escape.eq_4 c rest hc hs]
      intro h
      rcases List.mem_cons.1 h with h | h
      · exact hs h.symm
      · exact ih h

end CoEdit.Path.Pointer

namespace CoEdit.Path

def ofPointer (pointer : String) : Path :=
  Pointer.ofChars pointer.toList

/-- The pointer text of a path; the root has the empty text. -/
def toPointer (path : Path) : String :=
  String.ofList (Pointer.toChars path)

end CoEdit.Path
