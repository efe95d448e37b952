import PulseSequencer.Branch.Ladder
import PulseSequencer.Time.Resolution

/-!
# The jump graph

The jumps of one variant in order of time. A branch leads from a jump to the jump that is met next, or to the end.

* `JumpGraph.ofTimeline` : the jumps with their times and merged ladders;
* `JumpGraph.successor` : where a target of a jump leads, `none` being the end of the sequence.
-/

namespace PulseSequencer

/-- A jump at its time, with its ladder. -/
structure TimedJump where
  name : String
  time : Binary64
  ladder : Ladder
deriving DecidableEq, Inhabited

namespace TimedJump

/-- The targets of a jump in ladder order, each once. -/
def targets (j : TimedJump) : List Target :=
  j.ladder.foldl (fun ts r => if ts.contains r.target then ts else ts ++ [r.target]) []

end TimedJump

structure JumpGraph where
  timeline : Timeline
  jumps : List TimedJump

namespace JumpGraph

def ofTimeline (t : Timeline) : Except Fault JumpGraph := do
  let jumps ← t.sequence.jumps.mapM fun (j, _) => do
    let time ← t.jumpTime j.name
    return { name := j.name, time, ladder := ← j.mergedLadder : TimedJump }
  return ⟨t, Sort.sortBy (fun a b => !decide (b.time < a.time)) jumps⟩

/-- The first jump strictly after a time. -/
def nextAfter (g : JumpGraph) (time : Binary64) : Option TimedJump := g.jumps.find? fun j => decide (time < j.time)

/-- The jump of a name; of several, the last in time. -/
def find? (g : JumpGraph) (name : String) : Option TimedJump := g.jumps.reverse.find? fun j => j.name == name

def successor (g : JumpGraph) (j : TimedJump) : Target → Except Fault (Option TimedJump)
  | .terminate => .ok none
  | .pass => .ok (g.nextAfter j.time)
  | .destination (.jump name) =>
    match g.find? name with
    | some k => .ok (some k)
    | none =>
      .error ⟨.unresolvedReference, some j.name, s!"Jump '{j.name}' goes to unknown jump '{name}'"⟩
  | .destination r => do return g.nextAfter (← g.timeline.timeOf r j.name)

end JumpGraph

end PulseSequencer
