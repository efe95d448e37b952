import PulseSequencer.Time.Point
import PulseSequencer.Binary64.Arithmetic
import PulseSequencer.Fault

/-!
# Jumps and their conditions

* `Target` : where a branch goes on: past the jump, at the end, or at another point of the sequence;
* `Condition` : a range of counts and the target it selects, or the target of all other counts;
* `Jump` : a branch on the count of a window, or an unconditional move;
* `Jump.rules` : the conditions a jump evaluates, with exactly one `otherwise`.
-/

namespace PulseSequencer

inductive Target where
  | destination (reference : Reference)
  | terminate
  | pass
deriving DecidableEq, Inhabited

def Target.text : Target → String
  | destination reference => reference.text
  | terminate => "terminate"
  | pass => "pass"

inductive Condition where
  /-- One count. -/
  | exactly (value : Binary64) (target : Target)
  /-- All counts from a threshold on. -/
  | atLeast (threshold : Binary64) (target : Target)
  /-- The counts from `start` up to, and without, `stop`. -/
  | between (start stop : Binary64) (target : Target)
  | otherwise (target : Target)
deriving DecidableEq, Inhabited

namespace Condition

/-- Counts have 16 bits. -/
def countLimit : Nat := 0x10000

def target : Condition → Target
  | exactly _ t => t
  | atLeast _ t => t
  | between _ _ t => t
  | otherwise t => t

def isOtherwise : Condition → Bool
  | otherwise _ => true
  | _ => false

/-- The half-open range of counts; an `otherwise` has none. -/
def range? : Condition → Option (Binary64 × Binary64)
  | exactly value _ => some (value, value + 1)
  | atLeast threshold _ => some (threshold, .ofNat countLimit)
  | between start stop _ => some (start, stop)
  | otherwise _ => none

end Condition

inductive JumpAction where
  /-- Branches on the count of a window. -/
  | branch (window : String) (conditions : List Condition)
  | goto (destination : Reference)
  | terminate
deriving DecidableEq, Inhabited

structure Jump where
  name : String
  time : TimePoint
  action : JumpAction
deriving DecidableEq, Inhabited

namespace Jump

def isBranch (j : Jump) : Bool :=
  match j.action with
  | .branch .. => true
  | _ => false

/-- The conditions with exactly one `otherwise`; a branch without one passes on all other counts. -/
def rules (j : Jump) : Except Fault (List Condition) :=
  match j.action with
  | .goto destination => .ok [.otherwise (.destination destination)]
  | .terminate => .ok [.otherwise .terminate]
  | .branch _ conditions =>
    match conditions.countP Condition.isOtherwise with
    | 0 => .ok (conditions ++ [.otherwise .pass])
    | 1 => .ok conditions
    | n => .error ⟨.invalidDefinition, some j.name, s!"Jump '{j.name}' has {n} else conditions"⟩

/-- The warning about a branch without an `otherwise`. -/
def missingOtherwise (j : Jump) : List Warning :=
  match j.action with
  | .branch _ conditions =>
    if conditions.any Condition.isOtherwise then []
    else [⟨s!"Jump '{j.name}' has no else condition, adding else → pass", some j.name⟩]
  | _ => []

end Jump

end PulseSequencer
