import PulseSequencer.Json.Basic
import PulseSequencer.Binary64.Numeral

/-!
# Reading JSON

* `Json.parse?` : the value a text holds, `none` if it is not one JSON value with blanks around it.

An escaped surrogate pair is one character; a surrogate that stands alone is read as U+FFFD.
-/

namespace PulseSequencer.Json

def isSpace (c : Char) : Bool := c == ' ' || c == '\n' || c == '\r' || c == '\t'

def skipSpace (cs : List Char) : List Char := cs.dropWhile isSpace

/-- Four hexadecimal digits. -/
def unit? (a b c d : Char) : Option Nat :=
  if [a, b, c, d].all (Numeral.isDigitOf 16) then some (Numeral.natOf 16 [a, b, c, d]) else none

def isHighSurrogate (u : Nat) : Bool := 0xD800 ≤ u && u < 0xDC00

def isLowSurrogate (u : Nat) : Bool := 0xDC00 ≤ u && u < 0xE000

def replacement : Char := Char.ofNat 0xFFFD

def ofUnit (u : Nat) : Char := if isHighSurrogate u || isLowSurrogate u then replacement else Char.ofNat u

def simpleEscape? : Char → Option Char
  | '"' => some '"'
  | '\\' => some '\\'
  | '/' => some '/'
  | 'b' => some (Char.ofNat 8)
  | 'f' => some (Char.ofNat 12)
  | 'n' => some '\n'
  | 'r' => some '\r'
  | 't' => some '\t'
  | _ => none

/-- The characters up to the closing quotation mark, last one first, and what follows it. `high` is a high surrogate
that waits for its low one. -/
def stringBody (read : List Char) (high : Option Nat) : List Char → Option (List Char × List Char)
  | [] => none
  | '"' :: rest => some (if high.isSome then replacement :: read else read, rest)
  | '\\' :: 'u' :: a :: b :: c :: d :: rest =>
    match unit? a b c d with
    | none => none
    | some u =>
      match high with
      | some h =>
        if isLowSurrogate u then
          stringBody (Char.ofNat (0x10000 + (h - 0xD800) * 0x400 + (u - 0xDC00)) :: read) none rest
        else if isHighSurrogate u then stringBody (replacement :: read) (some u) rest
        else stringBody (ofUnit u :: replacement :: read) none rest
      | none =>
        if isHighSurrogate u then stringBody read (some u) rest else stringBody (ofUnit u :: read) none rest
  | '\\' :: c :: rest =>
    match simpleEscape? c with
    | none => none
    | some e => stringBody (e :: (if high.isSome then replacement :: read else read)) none rest
  | c :: rest => stringBody (c :: (if high.isSome then replacement :: read else read)) none rest

def string? (cs : List Char) : Option (String × List Char) :=
  (stringBody [] none cs).map fun (read, rest) => (String.ofList read.reverse, rest)

/-- The rest of a text that starts with the given word. -/
def word? (word : List Char) (cs : List Char) : Option (List Char) :=
  if word.isPrefixOf cs then some (cs.drop word.length) else none

mutual

/-- A value and what follows it; the first argument bounds the depth of the search. -/
def value? : Nat → List Char → Option (Json × List Char)
  | 0, _ => none
  | depth + 1, cs =>
    match skipSpace cs with
    | '"' :: rest => (string? rest).map fun (s, rest) => (string s, rest)
    | '[' :: rest =>
      match skipSpace rest with
      | ']' :: rest => some (array [], rest)
      | rest => (items? depth rest).map fun (items, rest) => (array items, rest)
    | '\x7b' :: rest =>
      match skipSpace rest with
      | '\x7d' :: rest => some (object [], rest)
      | rest => (members? depth rest).map fun (members, rest) => (object members, rest)
    | cs =>
      match word? "true".toList cs with
      | some rest => some (bool true, rest)
      | none =>
        match word? "false".toList cs with
        | some rest => some (bool false, rest)
        | none =>
          match word? "null".toList cs with
          | some rest => some (null, rest)
          | none => (Numeral.decimal? cs).map fun (n, rest) => (number n, rest)

def items? : Nat → List Char → Option (List Json × List Char)
  | 0, _ => none
  | depth + 1, cs =>
    match value? depth cs with
    | none => none
    | some (item, rest) =>
      match skipSpace rest with
      | ',' :: rest => (items? depth rest).map fun (items, rest) => (item :: items, rest)
      | ']' :: rest => some ([item], rest)
      | _ => none

def members? : Nat → List Char → Option (List (String × Json) × List Char)
  | 0, _ => none
  | depth + 1, cs =>
    match skipSpace cs with
    | '"' :: rest =>
      match string? rest with
      | none => none
      | some (name, rest) =>
        match skipSpace rest with
        | ':' :: rest =>
          match value? depth rest with
          | none => none
          | some (value, rest) =>
            match skipSpace rest with
            | ',' :: rest => (members? depth rest).map fun (members, rest) => ((name, value) :: members, rest)
            | '\x7d' :: rest => some ([(name, value)], rest)
            | _ => none
        | _ => none
    | _ => none

end

/-- Every nested call starts after at least one more character, so twice the length bounds the depth. -/
def parse? (text : String) : Option Json :=
  let cs := text.toList
  match value? (2 * cs.length + 2) cs with
  | some (value, rest) => if (skipSpace rest).isEmpty then some value else none
  | none => none

end PulseSequencer.Json
