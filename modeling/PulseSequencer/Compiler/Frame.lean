import PulseSequencer.Compiler.Options
import PulseSequencer.Compiler.Pulse
import PulseSequencer.Control.Register
import PulseSequencer.Schedule.Block

/-!
# Control register writes

* `Frame` : what stays fixed while a variant is compiled;
* `Build` : the draft so far, with the next unused destination id;
* `Build.writeId` : writes a new id to the control register and clears it again after the high time;
* `Build.land` : the place where a jump lands.
-/

namespace PulseSequencer

structure Frame where
  timeline : Timeline
  options : Options
  /-- Length in ticks; the END stands at the last one. -/
  length : Int
  pulses : List Pulse
  /-- The END. -/
  final : Label

namespace Frame

def sequence (f : Frame) : Sequence := f.timeline.sequence

def register (f : Frame) : Register := f.sequence.hardware.register

/-- The tick of the END. -/
def terminator (f : Frame) : Int := f.length - 1

def highTime (f : Frame) : Int := f.options.highTime.toWhole

def tickOf (f : Frame) (time : Binary64) : Int := Tick.ofTime f.sequence.hardware.delayUnit time

end Frame

structure Build where
  draft : Draft
  /-- The next destination id. -/
  nextId : Nat

namespace Build

/-- A new destination id, as long as the register can carry it. -/
def newId (f : Frame) (b : Build) : Except Fault (Nat × Build) :=
  let id := b.nextId
  if f.register.capacity < id then
    let width := f.register.width
    let needed := Register.requiredWidth id
    .error ⟨.controlRegisterOverflow, none,
      s!"Control register of {width} bits cannot carry destination id {id}; {needed} bits are needed"⟩
  else .ok (id, { b with nextId := id + 1 })

/-- Adds a SET to the draft. -/
def addSet (b : Build) (time value mask : Int) (block : Option String) (marker : Bool) :
    Except Fault (Label × Build) := do
  let (l, board) ← b.draft.board.addSet time value mask block marker
  return (l, { b with draft := { b.draft with board }.append [l] })

/-- Writes an id at a tick and clears it after the high time. Gives the SET that writes. -/
def write (f : Frame) (tick : Int) (id : Nat) (block : Option String) (b : Build) :
    Except Fault (Label × Build) := do
  let reset := tick + f.highTime
  if f.terminator ≤ reset then
    let first := wholeText tick
    let last := wholeText reset
    throw ⟨.sequenceTooShort, block,
      s!"Control register write at tick {first} needs the sequence to run past tick {last}"⟩
  else
    let (written, b) ← b.addSet tick (f.register.stateOf (Gray.encode id)) f.register.mask block true
    let (_, b) ← b.addSet reset 0 f.register.mask block true
    return (written, b)

/-- Writes a new id. -/
def writeId (f : Frame) (tick : Int) (block : Option String) (b : Build) : Except Fault (Label × Build) := do
  let (id, b) ← b.newId f
  b.write f tick id block

/-- Where a jump lands: a control register write, and the full output state of the tick. -/
def land (f : Frame) (tick : Int) (b : Build) : Except Fault (Label × Build) := do
  let (written, b) ← b.writeId f tick none
  let (_, b) ← b.addSet tick (Pulse.stateAt f.pulses tick) f.register.complement none false
  return (written, b)

end Build

end PulseSequencer
