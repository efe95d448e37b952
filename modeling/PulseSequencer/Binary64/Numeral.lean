import PulseSequencer.Binary64.Basic
import PulseSequencer.Text.Blank

/-!
# Reading numerals

* `Numeral.decimal?` : digits with an optional sign, point and exponent;
* `Numeral.read` : a whole text as a number: blanks around it are ignored, nothing at all is zero, `0x`, `0o` and `0b`
  start a number of that base, and what is no numeral is not-a-number.
-/

namespace PulseSequencer.Numeral

def digitValue (c : Char) : Nat :=
  if '0' ≤ c && c ≤ '9' then c.toNat - 48
  else if 'a' ≤ c && c ≤ 'z' then c.toNat - 87
  else if 'A' ≤ c && c ≤ 'Z' then c.toNat - 55
  else 36

def isDigitOf (base : Nat) (c : Char) : Bool := digitValue c < base

def natOf (base : Nat) (digits : List Char) : Nat :=
  digits.foldl (fun n c => n * base + digitValue c) 0

/-- A sign in front of a text, if there is one: whether it is a minus, and the rest. -/
def takeSign : List Char → Bool × List Char
  | '-' :: rest => (true, rest)
  | '+' :: rest => (false, rest)
  | cs => (false, cs)

/-- The exponent part of a decimal: `none` if there is a mark without digits. -/
def takeExponent : List Char → Option (Int × List Char)
  | c :: rest =>
    if c = 'e' ∨ c = 'E' then
      let (minus, rest) := takeSign rest
      let digits := rest.takeWhile (isDigitOf 10)
      if digits.isEmpty then none
      else
        let n : Int := natOf 10 digits
        some (if minus then -n else n, rest.dropWhile (isDigitOf 10))
    else some (0, c :: rest)
  | [] => some (0, [])

/-- A decimal at the start of a text, and what follows it. -/
def decimal? (cs : List Char) : Option (Binary64 × List Char) :=
  let (minus, cs) := takeSign cs
  let whole := cs.takeWhile (isDigitOf 10)
  let afterWhole := cs.dropWhile (isDigitOf 10)
  let (fraction, afterFraction) :=
    match afterWhole with
    | '.' :: rest => (rest.takeWhile (isDigitOf 10), rest.dropWhile (isDigitOf 10))
    | rest => ([], rest)
  if whole.isEmpty && fraction.isEmpty then none
  else
    match takeExponent afterFraction with
    | none => none
    | some (exponent, rest) =>
      some (.ofDecimal minus (natOf 10 (whole ++ fraction)) (exponent - (fraction.length : Int)), rest)

/-- A number in the given base, nothing but digits. -/
def inBase (base : Nat) (digits : List Char) : Binary64 :=
  if digits.isEmpty || !digits.all (isDigitOf base) then .nan else .ofNat (natOf base digits)

def unbounded (cs : List Char) : Option Binary64 :=
  let (minus, rest) := takeSign cs
  if rest = "Infinity".toList then some (.infinite minus) else none

def readChars : List Char → Binary64
  | [] => .zero false
  | '0' :: c :: rest =>
    if c = 'x' ∨ c = 'X' then inBase 16 rest
    else if c = 'o' ∨ c = 'O' then inBase 8 rest
    else if c = 'b' ∨ c = 'B' then inBase 2 rest
    else
      match decimal? ('0' :: c :: rest) with
      | some (n, []) => n
      | _ => .nan
  | cs =>
    match unbounded cs with
    | some n => n
    | none =>
      match decimal? cs with
      | some (n, []) => n
      | _ => .nan

def read (text : String) : Binary64 := readChars (Text.trimChars text.toList)

end PulseSequencer.Numeral
