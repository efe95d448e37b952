import PulseSequencer.Bits

/-!
# Hardware configurations

* `Hardware` : the output lines, inputs, pulse counters and control register of a bench;
* `Hardware.polarityMask`, `Hardware.idleState` : bus values of its outputs.

Channel numbers are taken as written; `Hardware.check` rejects those that no line has.
-/

namespace PulseSequencer

structure OutputLine where
  name : String
  channel : Binary64
  /-- Whether logical high drives the line high. -/
  activeHigh : Bool
  idleHigh : Bool
deriving DecidableEq, Inhabited

/-- A timestamping input. -/
structure InputLine where
  name : String
  channel : Binary64
deriving DecidableEq, Inhabited

/-- Counts pulses while its gate output is high; jumps test it by its channel. -/
structure PulseCounter where
  name : String
  channel : Binary64
  gate : Binary64
deriving DecidableEq, Inhabited

/-- A bit of the control register, with the output that drives it and the input it is read back on. -/
structure RegisterBit where
  bit : Binary64
  output : Binary64
  input : Binary64
deriving DecidableEq, Inhabited

structure Hardware where
  name : String
  /-- Length of a tick in µs. -/
  delayUnit : Binary64
  outputs : List OutputLine
  inputs : List InputLine
  counters : List PulseCounter
  register : List RegisterBit
deriving DecidableEq, Inhabited

namespace Hardware

def outputLimit : Nat := 24
def inputLimit : Nat := 8
def counterLimit : Nat := 8

def defaultDelayUnit : Binary64 := .ofDecimal false 1 (-2)

/-- The value with the bits of the given channels. -/
def maskOf (channels : List Binary64) : Int :=
  channels.foldl (fun mask channel => Bits.or mask (Bits.single channel.toWhole)) 0

/-- The outputs that are active low; their bits are inverted on the wire. -/
def polarityMask (h : Hardware) : Int :=
  maskOf ((h.outputs.filter fun o => !o.activeHigh).map OutputLine.channel)

def idleState (h : Hardware) : Int :=
  maskOf ((h.outputs.filter OutputLine.idleHigh).map OutputLine.channel)

end Hardware

end PulseSequencer
