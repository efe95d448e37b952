import PulseSequencer.Json.Basic
import PulseSequencer.Text.Blank

/-!
# Writing JSON

* `Json.compact` : without any blank;
* `Json.pretty` : one member or item a line, two blanks a level; empty arrays and objects stay closed.

A number that is not finite has no JSON form and is written `null`.
-/

namespace PulseSequencer.Json

/-- Quotation marks, backslashes and control characters are escaped, nothing else. -/
def escape (c : Char) : String :=
  if c = '"' then "\\\""
  else if c = '\\' then "\\\\"
  else if c = '\n' then "\\n"
  else if c = '\r' then "\\r"
  else if c = '\t' then "\\t"
  else if c.toNat = 8 then "\\b"
  else if c.toNat = 12 then "\\f"
  else if c.toNat < 32 then "\\u" ++ Text.padLeft 4 '0' (String.ofList (Nat.toDigits 16 c.toNat))
  else c.toString

def quote (s : String) : String := "\"" ++ String.join (s.toList.map escape) ++ "\""

def numberText (n : Binary64) : String := if n.isFinite then n.text else "null"

mutual

def compact : Json → String
  | null => "null"
  | bool b => if b then "true" else "false"
  | number n => numberText n
  | string s => quote s
  | array items => "[" ++ String.intercalate "," (compactItems items) ++ "]"
  | object members => "\x7b" ++ String.intercalate "," (compactMembers members) ++ "\x7d"

def compactItems : List Json → List String
  | [] => []
  | item :: items => compact item :: compactItems items

def compactMembers : List (String × Json) → List String
  | [] => []
  | (name, value) :: members => (quote name ++ ":" ++ compact value) :: compactMembers members

end

/-- The brackets around parts that stand on lines of their own. -/
def bracket (opening closing margin : String) (parts : List String) : String :=
  if parts.isEmpty then opening ++ closing
  else opening ++ "\n" ++ String.intercalate ",\n" parts ++ "\n" ++ margin ++ closing

mutual

/-- The text of a value whose first line starts after `margin`. -/
def prettyFrom (margin : String) : Json → String
  | null => "null"
  | bool b => if b then "true" else "false"
  | number n => numberText n
  | string s => quote s
  | array items => bracket "[" "]" margin (prettyItems (margin ++ "  ") items)
  | object members => bracket "\x7b" "\x7d" margin (prettyMembers (margin ++ "  ") members)

def prettyItems (margin : String) : List Json → List String
  | [] => []
  | item :: items => (margin ++ prettyFrom margin item) :: prettyItems margin items

def prettyMembers (margin : String) : List (String × Json) → List String
  | [] => []
  | (name, value) :: members =>
    (margin ++ quote name ++ ": " ++ prettyFrom margin value) :: prettyMembers margin members

end

def pretty (value : Json) : String := prettyFrom "" value

end PulseSequencer.Json
