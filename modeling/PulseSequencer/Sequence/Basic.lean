import PulseSequencer.Branch.Condition
import PulseSequencer.Control.Variable
import PulseSequencer.Hardware.Basic

/-!
# Sequences

A sequence is a list of channels with windows in time, on a given hardware, in one or more variants that differ in the
values of the control variables.

* `Channel` : an output line, a recorded input, or a counter gate with the jumps that test its count;
* `Sequence` : the whole description;
* `Sequence.window?`, `Sequence.jump?` : look-up by name, the first of a name counts;
* `Sequence.outputLine`, `Sequence.inputLine`, `Sequence.pulseCounter` : the line a channel runs on.
-/

namespace PulseSequencer

inductive Role where
  | output
  /-- A recorded input; its windows are not compiled. -/
  | counter
  /-- Gates a pulse counter and holds the jumps that test it. -/
  | control (jumps : List Jump)
deriving DecidableEq, Inhabited

structure Channel where
  name : String
  windows : List Window
  role : Role
deriving DecidableEq, Inhabited

namespace Channel

def jumps (c : Channel) : List Jump :=
  match c.role with
  | .control jumps => jumps
  | _ => []

def isControl (c : Channel) : Bool :=
  match c.role with
  | .control _ => true
  | _ => false

end Channel

structure Sequence where
  name : String
  /-- Length in µs. -/
  length : Binary64
  shots : Binary64
  variants : Binary64
  hardware : Hardware
  controls : List ControlVariable
  channels : List Channel
deriving DecidableEq, Inhabited

namespace Sequence

/-- All windows with their channels, channel by channel. -/
def windows (s : Sequence) : List (Window × Channel) :=
  s.channels.flatMap fun c => c.windows.map fun w => (w, c)

/-- All jumps with their channels, channel by channel. -/
def jumps (s : Sequence) : List (Jump × Channel) :=
  s.channels.flatMap fun c => c.jumps.map fun j => (j, c)

def hasJumps (s : Sequence) : Bool := !s.jumps.isEmpty

def window? (s : Sequence) (name : String) : Option Window :=
  (s.windows.find? fun e => e.1.name == name).map Prod.fst

def jump? (s : Sequence) (name : String) : Option Jump :=
  (s.jumps.find? fun e => e.1.name == name).map Prod.fst

def unmapped (channel what : String) : Fault :=
  ⟨.invalidDefinition, some channel,
    s!"Channel '{channel}' has no matching {what} in the hardware configuration"⟩

/-! ## Lines of channels -/

def outputLine (h : Hardware) (channel : String) : Except Fault OutputLine :=
  match h.outputs.find? fun o => o.name == channel with
  | some o => .ok o
  | none => .error (unmapped channel "FPGA output")

def inputLine (h : Hardware) (channel : String) : Except Fault InputLine :=
  match h.inputs.find? fun i => i.name == channel with
  | some i => .ok i
  | none => .error (unmapped channel "TDC input")

def pulseCounter (h : Hardware) (channel : String) : Except Fault PulseCounter :=
  match h.counters.find? fun c => c.name == channel with
  | some c => .ok c
  | none => .error (unmapped channel "SPC")

end Sequence

end PulseSequencer
