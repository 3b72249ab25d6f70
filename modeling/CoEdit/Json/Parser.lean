import CoEdit.Json.Basic
import CoEdit.Digits

/-!
# Reading JSON text

The reader takes the characters from the front and returns what is left. A number without a point
and without an exponent is an integer if it fits 64 bits with or without a sign; every other number
is rounded to the nearest double, and one too large for that cannot be read. The literal `-0` is a
double, since no integer has its sign. Of two members with one name the last value counts, in the
place of the first.
-/
namespace CoEdit.Json.Parser

def isBlank (c : Char) : Bool :=
  c = ' ' || c = '\t' || c = '\n' || c = '\r'

def skipBlank (cs : List Char) : List Char :=
  cs.dropWhile isBlank

/-- What follows `word`, if the text starts with it. -/
def keyword? (word : String) (cs : List Char) : Option (List Char) :=
  if word.toList.isPrefixOf cs then some (cs.drop word.length) else none

/-- The longest run of digits and what follows it. -/
def digits (cs : List Char) : List Char × List Char :=
  (cs.takeWhile Char.isDigit, cs.dropWhile Char.isDigit)

def someDigits? (cs : List Char) : Option (List Char × List Char) :=
  match digits cs with
  | ([], _) => none
  | found => some found

/-- Digits with no needless leading zero. -/
def wholePart? (cs : List Char) : Option (List Char × List Char) :=
  match cs with
  | '0' :: rest => some (['0'], rest)
  | _ => someDigits? cs

/-- The digits behind the point; none if there is no point. -/
def fractionPart? (cs : List Char) : Option (Option (List Char) × List Char) :=
  match cs with
  | '.' :: rest => (someDigits? rest).map fun found => (some found.1, found.2)
  | _ => some (none, cs)

/-- The power of ten behind the exponent mark; none if there is no mark. -/
def exponentPart? (cs : List Char) : Option (Option Int × List Char) :=
  match cs with
  | c :: rest =>
      if c = 'e' ∨ c = 'E' then
        match rest with
        | '-' :: more => (someDigits? more).map fun found => (some (-(Digits.ofDecimal found.1 : Int)), found.2)
        | '+' :: more => (someDigits? more).map fun found => (some (Digits.ofDecimal found.1 : Int), found.2)
        | _ => (someDigits? rest).map fun found => (some (Digits.ofDecimal found.1 : Int), found.2)
      else some (none, cs)
  | [] => some (none, cs)

/-- The double nearest to `significand * 10 ^ exponent`, unless that is too large. Beyond the bounds
tested first the answer is infinite or zero whatever the digits are. -/
def decimal? (significand : Nat) (exponent : Int) : Option Float :=
  let magnitude : Int := exponent + (Nat.toDigits 10 significand).length
  let x : Float :=
    if significand = 0 ∨ magnitude < -400 then 0
    else if 400 < magnitude then Float.ofBits 0x7ff0000000000000
    else if exponent < 0 then Float.ofScientific significand true exponent.natAbs
    else Float.ofScientific significand false exponent.natAbs
  if x.isFinite then some x else none

def assemble? (negative : Bool) (whole : List Char) (fraction : Option (List Char))
    (exponent : Option Int) : Option Json :=
  let rounded (significand : Nat) (power : Int) : Option Json :=
    (decimal? significand power).map fun x => .number (if negative then -x else x)
  match fraction, exponent with
  | none, none =>
      let n := Digits.ofDecimal whole
      if negative then
        if 0 < n ∧ n ≤ Word.signedBound then some (.integer (-(n : Int))) else rounded n 0
      else if n < Word.bound then some (.integer n)
      else rounded n 0
  | _, _ =>
      let behind := fraction.getD []
      rounded (Digits.ofDecimal (whole ++ behind)) (exponent.getD 0 - behind.length)

def number? (cs : List Char) : Option (Json × List Char) := do
  let (negative, cs) := match cs with
    | '-' :: rest => (true, rest)
    | _ => (false, cs)
  let (whole, cs) ← wholePart? cs
  let (fraction, cs) ← fractionPart? cs
  let (exponent, cs) ← exponentPart? cs
  let value ← assemble? negative whole fraction exponent
  return (value, cs)

/-- Four hexadecimal digits. -/
def codeUnit? (cs : List Char) : Option (Nat × List Char) :=
  match cs with
  | a :: b :: c :: d :: rest => (Digits.ofHex? [a, b, c, d]).map fun n => (n, rest)
  | _ => none

/-- The character that an escaped code unit stands for; a high surrogate takes the low one that has
to follow it. -/
def escapedUnit? (cs : List Char) : Option (Char × List Char) := do
  let (unit, cs) ← codeUnit? cs
  if 0xD800 ≤ unit ∧ unit < 0xDC00 then
    match cs with
    | '\\' :: 'u' :: rest =>
        let (low, cs) ← codeUnit? rest
        if 0xDC00 ≤ low ∧ low < 0xE000 then
          some (Char.ofNat (0x10000 + (unit - 0xD800) * 0x400 + (low - 0xDC00)), cs)
        else none
    | _ => none
  else if 0xDC00 ≤ unit ∧ unit < 0xE000 then none
  else some (Char.ofNat unit, cs)

/-- The character that a one-letter escape stands for. -/
def shortEscape? (c : Char) : Option Char :=
  match c with
  | '"' => some '"'
  | '\\' => some '\\'
  | '/' => some '/'
  | 'b' => some '\x08'
  | 'f' => some '\x0c'
  | 'n' => some '\n'
  | 'r' => some '\r'
  | 't' => some '\t'
  | _ => none

/-- The characters up to the closing quote, in reverse on `seen`. -/
def quotedTail? : Nat → List Char → List Char → Option (String × List Char)
  | 0, _, _ => none
  | fuel + 1, seen, cs =>
      match cs with
      | [] => none
      | '"' :: rest => some (String.ofList seen.reverse, rest)
      | '\\' :: 'u' :: rest =>
          match escapedUnit? rest with
          | some (c, rest) => quotedTail? fuel (c :: seen) rest
          | none => none
      | '\\' :: e :: rest =>
          match shortEscape? e with
          | some c => quotedTail? fuel (c :: seen) rest
          | none => none
      | c :: rest =>
          if c = '\\' ∨ c.toNat < 0x20 then none else quotedTail? fuel (c :: seen) rest

def string? (cs : List Char) : Option (String × List Char) :=
  match cs with
  | '"' :: rest => quotedTail? (rest.length + 1) [] rest
  | _ => none

mutual

/-- A value at the front of the text. Every step takes a character, so `fuel` is enough as soon as
it exceeds the length of the text. -/
def value? : Nat → List Char → Option (Json × List Char)
  | 0, _ => none
  | fuel + 1, cs =>
      match skipBlank cs with
      | '"' :: rest =>
          (string? ('"' :: rest)).map fun found => (.string found.1, found.2)
      | '[' :: rest =>
          match skipBlank rest with
          | ']' :: rest => some (.array [], rest)
          | rest => (items? fuel rest).map fun found => (.array found.1, found.2)
      | '\x7b' :: rest =>
          match skipBlank rest with
          | '\x7d' :: rest => some (.object [], rest)
          | rest => (members? fuel [] rest).map fun found => (.object found.1, found.2)
      | cs =>
          match keyword? "null" cs, keyword? "true" cs, keyword? "false" cs with
          | some rest, _, _ => some (.null, rest)
          | _, some rest, _ => some (.boolean true, rest)
          | _, _, some rest => some (.boolean false, rest)
          | none, none, none => number? cs

def items? : Nat → List Char → Option (List Json × List Char)
  | 0, _ => none
  | fuel + 1, cs =>
      match value? fuel cs with
      | none => none
      | some (item, rest) =>
          match skipBlank rest with
          | ',' :: rest => (items? fuel rest).map fun found => (item :: found.1, found.2)
          | ']' :: rest => some ([item], rest)
          | _ => none

/-- The members of an object up to its closing brace, added to those already `seen`. -/
def members? : Nat → List (String × Json) → List Char → Option (List (String × Json) × List Char)
  | 0, _, _ => none
  | fuel + 1, seen, cs =>
      match string? (skipBlank cs) with
      | none => none
      | some (name, rest) =>
          match skipBlank rest with
          | ':' :: rest =>
              match value? fuel rest with
              | none => none
              | some (item, rest) =>
                  match skipBlank rest with
                  | ',' :: rest => members? fuel (Entries.put name item seen) rest
                  | '\x7d' :: rest => some (Entries.put name item seen, rest)
                  | _ => none
          | _ => none

end

end Parser

/-- The deepest nesting that is read. -/
def maxDepth : Nat := 127

/-- The value that `text` spells, with nothing but blank space around it and no deeper than
`maxDepth`. -/
def parse? (text : String) : Option Json :=
  match Parser.value? (text.length + 1) text.toList with
  | some (value, rest) =>
      if Parser.skipBlank rest = [] ∧ value.depth ≤ maxDepth then some value else none
  | none => none

end CoEdit.Json
