/-!
# Binary64 numbers as exact values

A `Binary64` is the rational number it stands for, or one of the values no rational stands for: the negative zero,
the two infinities and not-a-number. An operation is the exact rational operation followed by one rounding
(`Binary64.ofRat`), so whole numbers up to `2 ^ 53` compute exactly.

* `Binary64.value` : the rational behind a number, `0` where there is none;
* `Binary64.ofRat` : rounding to nearest, ties to the even significand;
* `<`, `≤`, `Binary64.equal` : the numeric order, in which not-a-number is comparable with nothing.
-/

namespace PulseSequencer

inductive Binary64 where
  | finite (value : Rat)
  | negZero
  | infinite (negative : Bool)
  | nan
deriving DecidableEq, Inhabited

namespace Binary64

/-! ## Classification -/

/-- The rational a number stands for. -/
def value : Binary64 → Rat
  | finite q => q
  | _ => 0

def isNaN : Binary64 → Bool
  | nan => true
  | _ => false

def isFinite : Binary64 → Bool
  | finite _ => true
  | negZero => true
  | _ => false

def isZero : Binary64 → Bool
  | finite q => q.num == 0
  | negZero => true
  | _ => false

/-- Whether the number carries a minus sign. -/
def negative : Binary64 → Bool
  | finite q => decide (q.num < 0)
  | negZero => true
  | infinite n => n
  | nan => false

/-- A finite number without a fractional part. -/
def isWhole : Binary64 → Bool
  | finite q => q.den == 1
  | negZero => true
  | _ => false

/-! ## Order -/

protected def lt : Binary64 → Binary64 → Bool
  | nan, _ => false
  | _, nan => false
  | infinite true, infinite true => false
  | infinite true, _ => true
  | infinite false, _ => false
  | _, infinite n => !n
  | x, y => x.value.blt y.value

protected def le (x y : Binary64) : Bool :=
  !x.isNaN && !y.isNaN && !(y.lt x)

instance : LT Binary64 := ⟨fun x y => x.lt y = true⟩
instance : LE Binary64 := ⟨fun x y => x.le y = true⟩

instance (x y : Binary64) : Decidable (x < y) := inferInstanceAs (Decidable (x.lt y = true))
instance (x y : Binary64) : Decidable (x ≤ y) := inferInstanceAs (Decidable (x.le y = true))

/-- Numeric equality: the two zeros are equal, not-a-number equals nothing. -/
def equal (x y : Binary64) : Bool := x.le y && y.le x

/-- Equality of keys: numeric equality, under which not-a-number is one key. -/
def sameKey (x y : Binary64) : Bool := x.equal y || (x.isNaN && y.isNaN)

/-! ## Rounding -/

/-- The quotient rounded to the nearest natural, ties to even. -/
def roundDiv (num den : Nat) : Nat :=
  let quotient := num / den
  let rest := num % den
  if 2 * rest < den then quotient
  else if den < 2 * rest then quotient + 1
  else if quotient % 2 = 0 then quotient
  else quotient + 1

/-- The first significand that is too long, `2 ^ 53`. -/
def significandLimit : Nat := 0x20000000000000

/-- The exponent of the leading binary digit of `num / den`. -/
def leadingExponent (num den : Nat) : Int :=
  let estimate : Int := (num.log2 : Int) - (den.log2 : Int)
  let below :=
    if 0 ≤ estimate then decide (num < den * Nat.pow 2 estimate.toNat)
    else decide (num * Nat.pow 2 (-estimate).toNat < den)
  if below then estimate - 1 else estimate

def zero (negative : Bool) : Binary64 := if negative then negZero else finite 0

/-- The exponent of the last significant digit of a number with the given leading exponent. -/
def unitExponent (leading : Int) : Int := max (leading - 52) (-1074)

/-- The number nearest to `num / den`, of the given sign. -/
def roundMagnitude (negative : Bool) (num den : Nat) : Binary64 :=
  let unit := unitExponent (leadingExponent num den)
  if 971 < unit then infinite negative
  else
    let significand :=
      if 0 ≤ unit then roundDiv num (den * Nat.pow 2 unit.toNat) else roundDiv (num * Nat.pow 2 (-unit).toNat) den
    if significand = 0 then zero negative
    else if unit = 971 ∧ significand = significandLimit then infinite negative
    else
      let magnitude : Rat :=
        if 0 ≤ unit then ((significand * Nat.pow 2 unit.toNat : Nat) : Rat)
        else mkRat significand (Nat.pow 2 (-unit).toNat)
      finite (if negative then -magnitude else magnitude)

/-- The nearest binary64 number, ties to the even significand. Whole numbers up to `2 ^ 53` are exact. -/
def ofRat (q : Rat) : Binary64 :=
  if q.den = 1 ∧ q.num.natAbs ≤ significandLimit then finite q
  else roundMagnitude (decide (q.num < 0)) q.num.natAbs q.den

def ofInt (n : Int) : Binary64 := ofRat n

def ofNat (n : Nat) : Binary64 := ofInt n

instance (n : Nat) : OfNat Binary64 n := ⟨ofNat n⟩

/-- The value `digits * 10 ^ exponent`, correctly rounded. The bounds keep the powers of ten small: past them the
result is an infinity or a zero anyway. -/
def ofDecimal (negative : Bool) (digits : Nat) (exponent : Int) : Binary64 :=
  if digits = 0 then zero negative
  else if 400 < exponent then infinite negative
  else if exponent < -(400 + (digits.log2 : Int)) then zero negative
  else if 0 ≤ exponent then
    let n : Int := (digits * Nat.pow 10 exponent.toNat : Nat)
    ofInt (if negative then -n else n)
  else
    let n : Int := digits
    ofRat (mkRat (if negative then -n else n) (Nat.pow 10 (-exponent).toNat))

end Binary64

end PulseSequencer
