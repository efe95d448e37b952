import PulseSequencer.CommandLine
import PulseSequencer.Json.Reader

/-!
# The program

Reads the file that the arguments name and prints what `CommandLine.run` says. A sequence file holds a description as
JSON.
-/

namespace PulseSequencer

def readText (path : String) : IO (Option String) :=
  try
    return some (← IO.FS.readFile path)
  catch _ => return none

/-- The description a file holds. -/
def exportOf : Option String → CommandLine.Export
  | none => .absent
  | some text =>
    match Json.parse? text with
    | none => .nothing
    | some j =>
      match Sequence.ofJson? j with
      | some s => .sequence s
      | none => .value j

def breakdownText : CommandLine.Breakdown → String
  | .badOptions message => message
  | .stray e => e.message
  | .endless => "too many ticks"
  | .malformed => "incomplete description"
  | .missing => "cannot load the sequence file"

end PulseSequencer

open PulseSequencer in
def main (args : List String) : IO UInt32 := do
  let path := (CommandLine.Invocation.ofArgs args).words.getD 1 ""
  let text ← readText path
  let t := CommandLine.run { text? := fun _ => text, exported := fun _ => exportOf text } args
  IO.print t.out
  IO.eprint t.err
  if let some b := t.breakdown then IO.eprintln (breakdownText b)
  return t.code.toUInt32
