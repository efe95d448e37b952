import PulseSequencer.Binary64.Arithmetic

/-!
# Instruction words

A word of 32 bits has its opcode in the two highest bits. The fields below it:

* WAIT (0) : 30 bits of duration;
* JUMP (1) : one bit for an unconditional jump, 3 bits of counter channel, 16 bits of threshold, 10 bits of address;
* SET (2) : 24 bits of bus value;
* END (3) : none.

`Operation.ofWord` reads the fields and ignores all other bits; `Operation.toWord` writes fields that fit.
-/

namespace PulseSequencer

abbrev Word := BitVec 32

namespace Word

def durationLimit : Nat := 0x40000000
def busLimit : Nat := 0x1000000
def channelLimit : Nat := 8
def thresholdLimit : Nat := 0x10000
def addressLimit : Nat := 0x400

/-- A number as a word: the fraction dropped, the rest modulo `2 ^ 32`. -/
def ofNumber (n : Binary64) : Word := BitVec.ofInt 32 n.toWhole

end Word

inductive Operation where
  | wait (duration : Nat)
  | jump (always : Bool) (channel threshold address : Nat)
  | set (value : Nat)
  | stop
deriving DecidableEq, Inhabited

namespace Operation

def ofWord (w : Word) : Operation :=
  let n := w.toNat
  match n / 0x40000000 with
  | 0 => wait (n % Word.durationLimit)
  | 1 =>
    jump (n / 0x20000000 % 2 == 1) (n / 0x4000000 % Word.channelLimit) (n / 0x400 % Word.thresholdLimit)
      (n % Word.addressLimit)
  | 2 => set (n % Word.busLimit)
  | _ => stop

/-- The word of an operation, its fields taken as they are. -/
def toWord : Operation → Word
  | wait duration => BitVec.ofNat 32 duration
  | jump always channel threshold address =>
    BitVec.ofNat 32
      (0x40000000 + (if always then 0x20000000 else 0) + channel * 0x4000000 + threshold * 0x400 + address)
  | set value => BitVec.ofNat 32 (0x80000000 + value)
  | stop => BitVec.ofNat 32 0xC0000000

/-- The ticks an operation takes. -/
def width : Operation → Nat
  | wait duration => 1 + duration
  | _ => 1

end Operation

end PulseSequencer
