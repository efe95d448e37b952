import PulseSequencer.Binary64.Basic

/-!
# Decimal text of binary64 numbers

A number is written with the fewest decimal digits that read back as it, the nearest such decimal if there are several.

* `Decimal.shortest` : those digits, for a positive rational;
* `Binary64.text` : positional notation from `0.000001` up to `10 ^ 21`, exponents beyond; zeros have no sign.
-/

namespace PulseSequencer

/-- The decimal `digits * 10 ^ exponent`. -/
structure Decimal where
  digits : Nat
  exponent : Int

namespace Decimal

def digitText (n : Nat) : String := String.ofList (Nat.toDigits 10 n)

/-- The exponent of the leading decimal digit of `num / den`. -/
def leadingExponent (num den : Nat) : Int :=
  let estimate : Int := ((digitText num).length : Int) - ((digitText den).length : Int)
  let reached :=
    if 0 ≤ estimate then decide (den * Nat.pow 10 estimate.toNat ≤ num)
    else decide (den ≤ num * Nat.pow 10 (-estimate).toNat)
  if reached then estimate else estimate - 1

/-- The neighbours of `num / den` on the grid of step `10 ^ exponent`, the nearer one first, the even one on a tie. -/
def neighbours (num den : Nat) (exponent : Int) : List Decimal :=
  let dividend := if 0 ≤ exponent then num else num * Nat.pow 10 (-exponent).toNat
  let divisor := if 0 ≤ exponent then den * Nat.pow 10 exponent.toNat else den
  let low := dividend / divisor
  let rest := dividend % divisor
  if 2 * rest < divisor ∨ (2 * rest = divisor ∧ low % 2 = 0) then
    [⟨low, exponent⟩, ⟨low + 1, exponent⟩]
  else
    [⟨low + 1, exponent⟩, ⟨low, exponent⟩]

def readsBackAs (num den : Nat) (d : Decimal) : Bool :=
  Binary64.ofDecimal false d.digits d.exponent == .finite (mkRat num den)

/-- Drops one trailing zero. -/
def trim (d : Decimal) : Decimal :=
  if d.digits % 10 = 0 then ⟨d.digits / 10, d.exponent + 1⟩ else d

/-- The shortest decimal that rounds to the positive number `num / den`; seventeen digits always suffice. -/
def shortest (num den : Nat) : Decimal :=
  let leading := leadingExponent num den
  let found := (List.range 17).findSome? fun (extra : Nat) =>
    (neighbours num den (leading - (extra : Int))).find? (readsBackAs num den)
  match found with
  | some d => d.trim
  | none => ⟨num, 0⟩

def zeros (n : Nat) : String := String.ofList (List.replicate n '0')

/-- The text of a positive decimal without trailing zeros. -/
def text (d : Decimal) : String :=
  let digits := Nat.toDigits 10 d.digits
  let count : Int := digits.length
  let point := count + d.exponent
  if count ≤ point ∧ point ≤ 21 then
    String.ofList digits ++ zeros (point - count).toNat
  else if 0 < point ∧ point ≤ 21 then
    String.ofList (digits.take point.toNat) ++ "." ++ String.ofList (digits.drop point.toNat)
  else if -6 < point ∧ point ≤ 0 then
    "0." ++ zeros (-point).toNat ++ String.ofList digits
  else
    let fraction := digits.drop 1
    let mantissa :=
      String.ofList (digits.take 1) ++ (if fraction.isEmpty then "" else "." ++ String.ofList fraction)
    let exponent := point - 1
    mantissa ++ (if exponent < 0 then "e-" else "e+") ++ digitText exponent.natAbs

end Decimal

namespace Binary64

def text : Binary64 → String
  | finite q =>
    let sign := if q.num < 0 then "-" else ""
    if q.num = 0 then "0"
    else if q.den = 1 ∧ q.num.natAbs ≤ significandLimit then sign ++ Decimal.digitText q.num.natAbs
    else sign ++ (Decimal.shortest q.num.natAbs q.den).text
  | negZero => "0"
  | infinite n => if n then "-Infinity" else "Infinity"
  | nan => "NaN"

instance : ToString Binary64 := ⟨text⟩

end Binary64

/-- Whole numbers are written as the binary64 number nearest to them. -/
def wholeText (n : Int) : String := (Binary64.ofInt n).text

end PulseSequencer
