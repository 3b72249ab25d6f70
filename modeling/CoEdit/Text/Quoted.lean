import CoEdit.Text.Unprintable
import CoEdit.Text.DefaultIgnorable
import CoEdit.Text.GraphemeExtend

/-!
# Quoted text in messages

A property name inside a message stands between double quotes, with backslash escapes for whatever
would break the line or could not be seen.
-/
namespace CoEdit.Text

/-- The hexadecimal digits of `n` without leading zeros. -/
def shortHex (n : Nat) : String :=
  String.ofList (Nat.toDigits 16 n)

/-- The voiced and semi-voiced sound marks of halfwidth kana. They extend a grapheme and still take
a cell of their own. -/
def isHalfwidthSoundMark (c : Char) : Bool :=
  c = '\uff9e' || c = '\uff9f'

/-- A character that a reader could not make out on its own: nothing of it is drawn, or it is drawn
on its neighbour. -/
def isIndistinct (c : Char) : Bool :=
  isUnprintable c || isDefaultIgnorable c || (extendsGrapheme c && !isHalfwidthSoundMark c)

/-- One character inside double quotes. Indistinct characters are written by their code point. -/
def quotedChar (c : Char) : String :=
  if c = '\x00' then "\\0"
  else if c = '\t' then "\\t"
  else if c = '\r' then "\\r"
  else if c = '\n' then "\\n"
  else if c = '\\' then "\\\\"
  else if c = '"' then "\\\""
  else if isIndistinct c then "\\u\x7b" ++ shortHex c.toNat ++ "\x7d"
  else c.toString

def quoted (text : String) : String :=
  "\"" ++ String.join (text.toList.map quotedChar) ++ "\""

end CoEdit.Text
