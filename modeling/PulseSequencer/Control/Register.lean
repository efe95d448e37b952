import PulseSequencer.Hardware.Basic

/-!
# The control register

Destination ids are written onto the control register outputs in Gray code and read back on its inputs.

* `Gray.encode`, `Gray.decode` : the binary-reflected Gray code;
* `Register.stateOf`, `Register.valueOf` : a register value spread onto the bus and gathered back;
* `Register.capacity` : the largest id, id 0 being the reset;
* `Register.idOfPulse` : the id that a set of inputs seen together stands for.
-/

namespace PulseSequencer

namespace Gray

def encode (id : Int) : Int := Bits.xor id (Bits.half id)

/-- Adds a shifted code and all of its further shifts, modulo two. -/
def addShifts : (steps : Nat) → (shift sum : Int) → Int
  | 0, _, sum => sum
  | steps + 1, shift, sum =>
    if shift = 0 then sum else addShifts steps (Bits.half shift) (Bits.xor sum shift)

/-- A code has at most 32 digits, so 32 shifts use it up. -/
def decode (gray : Int) : Int := addShifts 32 (Bits.half gray) gray

end Gray

abbrev Register := List RegisterBit

namespace Register

def width (r : Register) : Nat := r.length

def capacity (r : Register) : Nat := Nat.pow 2 r.length - 1

/-- The least width that carries the ids `1 … ids`. -/
def requiredWidth (ids : Nat) : Nat := if ids = 0 then 0 else ids.log2 + 1

/-- The bus bits the register drives. -/
def mask (r : Register) : Int := Hardware.maskOf (r.map RegisterBit.output)

/-- The bus bits the register does not drive. -/
def complement (r : Register) : Int := Bits.without (Nat.pow 2 Hardware.outputLimit - 1 : Nat) r.mask

def inputMask (r : Register) : Int := Hardware.maskOf (r.map RegisterBit.input)

/-- Bit `i` of the value goes to the output of bit `i`. -/
def stateOf (r : Register) (value : Int) : Int :=
  Hardware.maskOf ((r.filter fun b => Bits.test value b.bit.toWhole).map RegisterBit.output)

def valueOf (r : Register) (state : Int) : Int :=
  Hardware.maskOf ((r.filter fun b => Bits.test state b.output.toWhole).map RegisterBit.bit)

/-- The value whose bits are seen on the given inputs. -/
def valueOfPulse (r : Register) (inputs : List Binary64) : Int :=
  Hardware.maskOf ((r.filter fun b => inputs.any fun i => i.sameKey b.input).map RegisterBit.bit)

def idOfPulse (r : Register) (inputs : List Binary64) : Int := Gray.decode (r.valueOfPulse inputs)

end Register

end PulseSequencer
