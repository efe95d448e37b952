import PulseSequencer.Sequence.Check

/-!
# Options of compilation

* `Options` : whether to cut the sequence after its last event, how long a control register write stays on the bus, and
  how many conditions a jump may have;
* `Options.check` : the two numbers are whole and positive.
-/

namespace PulseSequencer

structure Options where
  /-- Ends the sequence right after its latest window end or jump. -/
  truncate : Bool
  /-- Ticks a control register write stays on the bus. -/
  highTime : Binary64
  maxConditions : Binary64
deriving DecidableEq, Inhabited

namespace Options

def standard : Options := { truncate := false, highTime := 350, maxConditions := 10 }

/-- Why options cannot be used. -/
def complaint? (o : Options) : Option String :=
  if !Sequence.isCount o.highTime then
    some s!"controlRegisterHighTime must be a positive integer, got {o.highTime}"
  else if !Sequence.isCount o.maxConditions then
    some s!"maxJumpConditions must be a positive integer, got {o.maxConditions}"
  else none

/-- The options, or why they cannot be used. -/
def check (o : Options) : Except String Options :=
  match o.complaint? with
  | some message => .error message
  | none => .ok o

end Options

end PulseSequencer
