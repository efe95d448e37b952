import PulseSequencer.Binary64.Decimal

/-!
# Points in time

A time is given absolutely, by a control variable, or by its distance from another point of the sequence.

* `Reference` : a point that a name stands for: a boundary of a window, a jump, or the value of a control variable;
* `TimePoint` : a time that is still to be resolved;
* `Window` : the half-open interval from a start to an end.
-/

namespace PulseSequencer

inductive Reference where
  | start (window : String)
  | finish (window : String)
  | jump (name : String)
  | control (name : String)
deriving DecidableEq, Inhabited

namespace Reference

def name : Reference → String
  | start window => window
  | finish window => window
  | jump name => name
  | control name => name

def text : Reference → String
  | start window => s!"start of '{window}'"
  | finish window => s!"end of '{window}'"
  | jump name => s!"jump '{name}'"
  | control name => s!"variable '{name}'"

end Reference

inductive Offset where
  | absolute (value : Binary64)
  | control (name : String)
deriving DecidableEq, Inhabited

/-- A time in µs. -/
inductive TimePoint where
  | absolute (value : Binary64)
  | control (name : String)
  | relative (reference : Reference) (offset : Offset)
deriving DecidableEq, Inhabited

structure Window where
  name : String
  start : TimePoint
  finish : TimePoint
deriving DecidableEq, Inhabited

/-- A window that ends a given time after its own start. -/
def Window.lasting (name : String) (start : TimePoint) (duration : Offset) : Window :=
  { name, start, finish := .relative (.start name) duration }

end PulseSequencer
