import PulseSequencer.Binary64.Basic

/-!
# Arithmetic on binary64 numbers

Each operation computes the exact result and rounds it once. The sign of a zero is kept, because a division by it
shows it.

* `+`, `-`, `*`, `/`, `Binary64.sqrt` : correctly rounded;
* `Binary64.floor`, `Binary64.round` : whole numbers below and nearest, halves going up;
* `Binary64.toWhole` : the whole part as an integer.
-/

namespace PulseSequencer.Binary64

protected def neg : Binary64 → Binary64
  | finite q => if q.num = 0 then negZero else finite (-q)
  | negZero => finite 0
  | infinite n => infinite (!n)
  | nan => nan

protected def add : Binary64 → Binary64 → Binary64
  | nan, _ => nan
  | _, nan => nan
  | infinite a, infinite b => if a = b then infinite a else nan
  | infinite a, _ => infinite a
  | _, infinite b => infinite b
  | negZero, negZero => negZero
  | x, y => ofRat (x.value + y.value)

protected def mul : Binary64 → Binary64 → Binary64
  | nan, _ => nan
  | _, nan => nan
  | infinite a, y => if y.isZero then nan else infinite (a != y.negative)
  | x, infinite b => if x.isZero then nan else infinite (x.negative != b)
  | x, y => if x.isZero || y.isZero then zero (x.negative != y.negative) else ofRat (x.value * y.value)

protected def div : Binary64 → Binary64 → Binary64
  | nan, _ => nan
  | _, nan => nan
  | infinite _, infinite _ => nan
  | infinite a, y => infinite (a != y.negative)
  | x, infinite b => zero (x.negative != b)
  | x, y =>
    if y.isZero then
      if x.isZero then nan else infinite (x.negative != y.negative)
    else if x.isZero then zero (x.negative != y.negative)
    else ofRat (x.value / y.value)

instance : Neg Binary64 := ⟨Binary64.neg⟩
instance : Add Binary64 := ⟨Binary64.add⟩
instance : Sub Binary64 := ⟨fun x y => x + -y⟩
instance : Mul Binary64 := ⟨Binary64.mul⟩
instance : Div Binary64 := ⟨Binary64.div⟩

def abs : Binary64 → Binary64
  | finite q => finite (if q.num < 0 then -q else q)
  | negZero => finite 0
  | infinite _ => infinite false
  | nan => nan

/-- The larger number; not-a-number if either is. -/
protected def max (x y : Binary64) : Binary64 :=
  if x.isNaN || y.isNaN then nan else if x < y then y else x

/-- The smaller number; not-a-number if either is. -/
protected def min (x y : Binary64) : Binary64 :=
  if x.isNaN || y.isNaN then nan else if y < x then y else x

def floor : Binary64 → Binary64
  | finite q => finite q.floor
  | x => x

/-- The nearest whole number, halves going up. -/
def round : Binary64 → Binary64
  | finite q => finite (q + 1 / 2).floor
  | x => x

/-- The largest natural whose square is at most `n`, searched among the numbers below `2 ^ bits`. -/
def sqrtBelow (n : Nat) : Nat → Nat
  | 0 => 0
  | bits + 1 =>
    let high := 2 * sqrtBelow (n / 4) bits
    if (high + 1) * (high + 1) ≤ n then high + 1 else high

/-- Square root, correctly rounded. The root is taken to more than a hundred binary digits, and one further digit
records whether it is exact, so the final rounding sees on which side of a tie the root lies. -/
def sqrt : Binary64 → Binary64
  | finite q =>
    if q.num = 0 then finite 0
    else if q.num < 0 then nan
    else
      let leading := leadingExponent q.num.natAbs q.den
      let places : Nat := (120 - leading.ediv 2).toNat
      let scaled := q.num.natAbs * Nat.pow 4 places / q.den
      let exact := scaled * q.den = q.num.natAbs * Nat.pow 4 places
      let root := sqrtBelow scaled (scaled.log2 / 2 + 1)
      let sticky := if exact ∧ root * root = scaled then 0 else 1
      ofRat (mkRat (2 * root + sticky : Nat) (2 * Nat.pow 2 places))
  | negZero => negZero
  | infinite false => infinite false
  | _ => nan

/-- The whole part, the fraction dropped; `0` for what is not finite. -/
def toWhole : Binary64 → Int
  | finite q => q.num.tdiv q.den
  | _ => 0

/-- How many of `0, 1, 2, …` lie below the number; `0` for what is not finite. -/
def countBelow : Binary64 → Nat
  | finite q => q.ceil.toNat
  | _ => 0

end PulseSequencer.Binary64
