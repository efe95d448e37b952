import PulseSequencer.Binary64.Arithmetic
import PulseSequencer.Binary64.Decimal

/-!
# Times as ticks

* `Tick.quantize` : a time in µs as a whole number of ticks of the given length, ties to the even tick;
* `Tick.ofTime` : the same as an integer, an unbounded time being a tick past every binary64 number;
* `Tick.back` : the tick before another one.
-/

namespace PulseSequencer.Tick

/-- Relative noise that does not move a time off a tie or onto one. -/
def tolerance : Binary64 := .ofDecimal false 1 (-9)

def oneHalf : Binary64 := .ofDecimal false 5 (-1)

/-- Whether a number is twice a whole number. -/
def isEven : Binary64 → Bool
  | .finite q => q.den == 1 && q.num % 2 == 0
  | .negZero => true
  | _ => false

def quantize (time unit : Binary64) : Binary64 :=
  let exact := time / unit
  let below := exact.floor
  let margin := tolerance * Binary64.max 1 exact.abs
  if (exact - below - oneHalf).abs ≤ margin then
    if isEven below then below else below + 1
  else exact.round

/-- A tick that no binary64 number reaches. -/
def unbounded : Int := Nat.pow 2 1024

/-- A whole number as a tick. One that is not finite is past all that are, and so is what is no number. -/
def ofWhole : Binary64 → Int
  | .finite q => q.floor
  | .negZero => 0
  | .infinite true => -unbounded
  | _ => unbounded

def ofTime (unit time : Binary64) : Int := ofWhole (quantize time unit)

/-- The tick before, as binary64 numbers have it: from `2 ^ 53` on it may be two ticks away, or the tick itself. -/
def back (tick : Int) : Int := ofWhole (.ofInt tick - 1)

end PulseSequencer.Tick
