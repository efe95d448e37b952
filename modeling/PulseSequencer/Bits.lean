import PulseSequencer.Binary64.Arithmetic
import PulseSequencer.Binary64.Decimal
import PulseSequencer.Text.Blank

/-!
# Bits of bus values

A bus value or mask is an integer. The bit operations read it as a two's complement word of 32 bits and give a signed
result; only they wrap, a value that no operation touches stays as it is.

* `Bits.bits` : the word of an integer;
* `Bits.and`, `Bits.or`, `Bits.xor`, `Bits.without`, `Bits.single`, `Bits.test` : operations on words;
* `Bits.hex` : hexadecimal text.
-/

namespace PulseSequencer.Bits

def bits (n : Int) : BitVec 32 := BitVec.ofInt 32 n

def and (a b : Int) : Int := (bits a &&& bits b).toInt

def or (a b : Int) : Int := (bits a ||| bits b).toInt

def xor (a b : Int) : Int := (bits a ^^^ bits b).toInt

/-- The bits of `a` that are not in `mask`. -/
def without (a mask : Int) : Int := (bits a &&& ~~~ bits mask).toInt

/-- The value read without a sign. -/
def unsigned (n : Int) : Nat := (bits n).toNat

/-- A bit number as the shifter takes it: modulo the word size. -/
def position (n : Int) : Nat := (n % 32).toNat

/-- The value with bit `n` alone. -/
def single (n : Int) : Int := (1#32 <<< position n).toInt

def test (value n : Int) : Bool := (bits value).getLsbD (position n)

/-- Shift towards bit 0, the sign filling in from the left. -/
def half (n : Int) : Int := ((bits n).sshiftRight 1).toInt

/-- The upper case hexadecimal digits, after a minus sign where there is one, padded with zeros on the left. -/
def hex (value : Int) (width : Nat) : String :=
  let digits := (Nat.toDigits 16 value.natAbs).map Char.toUpper
  "0x" ++ Text.padLeft width '0' ((if value < 0 then "-" else "") ++ String.ofList digits)

/-- Width of the hexadecimal text of a bus value. -/
def busDigits : Nat := 6

end PulseSequencer.Bits
