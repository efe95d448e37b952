import PulseSequencer.Code.Word
import PulseSequencer.Bits

/-!
# Listings of programs

* `Operation.text` : one operation;
* `Listing.text` : a program, one word a line with its address from 1 and its hexadecimal digits.
-/

namespace PulseSequencer

namespace Operation

def text : Operation → String
  | wait duration => "WAIT " ++ Decimal.digitText duration
  | set value => "SET  " ++ Bits.hex value Bits.busDigits
  | jump always channel threshold address =>
    let goto := "JUMP " ++ Decimal.digitText address
    if always then goto
    else goto ++ " if spc" ++ Decimal.digitText channel ++ " >= " ++ Decimal.digitText threshold
  | stop => "END"

end Operation

namespace Listing

/-- The eight hexadecimal digits of a word. -/
def wordDigits (w : Word) : String :=
  Text.padLeft 8 '0' (String.ofList ((Nat.toDigits 16 w.toNat).map Char.toUpper))

def line (width address : Nat) (w : Word) : String :=
  Text.padLeft width ' ' (Decimal.digitText address) ++ "  " ++ wordDigits w ++ "  " ++ (Operation.ofWord w).text

def text (words : List Word) : String :=
  let width := (Decimal.digitText words.length).length
  Text.lines (words.mapIdx fun i w => line width (i + 1) w)

end Listing

end PulseSequencer
