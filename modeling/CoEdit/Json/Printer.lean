import CoEdit.Json.Basic
import CoEdit.Number

/-!
# Writing JSON text

Text goes out raw except for quotes, backslashes and control characters. A double is written by its
bits, as the only member `$f64` of an object, so that reading it again loses nothing; a number that
is not finite has no written form and becomes `null`.
-/
namespace CoEdit.Json.Printer

def escapedChar (c : Char) : String :=
  if c = '"' then "\\\""
  else if c = '\\' then "\\\\"
  else if c.toNat < 0x20 then "\\u" ++ String.ofList (Digits.hex 4 c.toNat)
  else c.toString

def quoted (text : String) : String :=
  "\"" ++ String.join (text.toList.map escapedChar) ++ "\""

/-- A double by its bits. -/
def double (x : Float) : String :=
  if x.isFinite then "\x7b\"$f64\":" ++ quoted (Number.bitsText x) ++ "\x7d" else "null"

mutual

/-- The text of a value, added to `out`. -/
def value (out : String) : Json → String
  | .null => out ++ "null"
  | .boolean true => out ++ "true"
  | .boolean false => out ++ "false"
  | .integer i => out ++ toString i
  | .number x => out ++ double x
  | .string s => out ++ quoted s
  | .array [] => out ++ "[]"
  | .array (item :: rest) => items (value (out ++ "[") item) rest ++ "]"
  | .object [] => out ++ "\x7b\x7d"
  | .object ((name, item) :: rest) =>
      members (value (out ++ "\x7b" ++ quoted name ++ ":") item) rest ++ "\x7d"

def items (out : String) : List Json → String
  | [] => out
  | item :: rest => items (value (out ++ ",") item) rest

def members (out : String) : List (String × Json) → String
  | [] => out
  | (name, item) :: rest => members (value (out ++ "," ++ quoted name ++ ":") item) rest

end

end Printer

/-- The text of a value on one line. -/
def render (value : Json) : String :=
  Printer.value "" value

end CoEdit.Json
