import PulseSequencer.Schedule.Draft
import PulseSequencer.Sequence.Check
import PulseSequencer.Time.Tick

/-!
# Pulses of output lines

The windows of a channel as the ticks in which its line is high. Windows that touch after quantization are one pulse.

* `Interval.merge` : intervals of ticks united where they meet;
* `Pulse`, `Pulse.stateAt` : a line that is high for some ticks, and the bus value at a tick;
* `Pulse.ofChannel` : the pulses of a channel, cut off before the end of the sequence.
-/

namespace PulseSequencer

/-- The ticks `start ≤ t < finish`. -/
structure Interval where
  start : Int
  finish : Int
deriving DecidableEq, Inhabited

namespace Interval

/-- Unites the following intervals with `last` as long as they meet it. -/
def mergeFrom (last : Interval) : List Interval → List Interval
  | [] => [last]
  | x :: rest =>
    if x.start ≤ last.finish then mergeFrom ⟨last.start, max last.finish x.finish⟩ rest
    else last :: mergeFrom x rest

/-- Disjoint intervals with the same ticks, in order. -/
def merge (xs : List Interval) : List Interval :=
  match Sort.sortBy (fun a b => decide (a.start ≤ b.start)) xs with
  | [] => []
  | x :: rest => mergeFrom x rest

end Interval

structure Pulse where
  interval : Interval
  /-- The line that is high. -/
  line : Int
deriving DecidableEq, Inhabited

namespace Pulse

def covers (p : Pulse) (tick : Int) : Bool := decide (p.interval.start ≤ tick) && decide (tick < p.interval.finish)

/-- The bus value at a tick: the lines of all pulses that cover it. -/
def stateAt (pulses : List Pulse) (tick : Int) : Int :=
  (pulses.filter fun p => p.covers tick).foldl (fun state p => Bits.or state (Bits.single p.line)) 0

/-- The line that a channel drives; `none` for a recorded input. -/
def lineOf (h : Hardware) (c : Channel) : Except Fault (Option Int) :=
  match c.role with
  | .counter => .ok none
  | .output => do return some (← Sequence.outputLine h c.name).channel.toWhole
  | .control _ => do return some (← Sequence.pulseCounter h c.name).gate.toWhole

/-- The ticks of a window before the last two of the sequence; a window without any is skipped. -/
def intervalOf (t : Timeline) (terminator : Int) (w : Window) : Attempt (List Interval) := do
  let unit := t.sequence.hardware.delayUnit
  let start := Tick.ofTime unit (← Attempt.ofExcept (t.startOf w.name))
  let finish := Tick.ofTime unit (← Attempt.ofExcept (t.finishOf w.name))
  let finish ←
    if terminator ≤ finish then do
      let last := wholeText (terminator - 1)
      Attempt.warn s!"Window '{w.name}' truncated to end at tick {last}" (some w.name)
      pure (terminator - 1)
    else pure finish
  if finish ≤ start then
    Attempt.warn s!"Window '{w.name}' has length 0 and is skipped" (some w.name)
    return []
  else return [⟨start, finish⟩]

def ofChannel (t : Timeline) (terminator : Int) (c : Channel) : Attempt (List Pulse) := do
  match ← Attempt.ofExcept (lineOf t.sequence.hardware c) with
  | none => return []
  | some line =>
    let intervals ← c.windows.mapM (intervalOf t terminator)
    return (Interval.merge intervals.flatten).map fun interval => ⟨interval, line⟩

/-- The SETs that raise and lower the line of a pulse. -/
def draw (d : Draft) (p : Pulse) : Except Fault Draft := do
  let bit := Bits.single p.line
  let (rise, board) ← d.board.addSet p.interval.start bit bit none false
  let (fall, board) ← board.addSet p.interval.finish 0 bit none false
  return { d with board }.append [rise, fall]

end Pulse

end PulseSequencer
