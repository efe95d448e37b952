import PulseSequencer.Branch.Condition
import PulseSequencer.Sort

/-!
# Threshold ladders

A ladder lists thresholds from the highest down; a count takes the first rung whose threshold it reaches.

* `Jump.ladder` : the conditions of a jump as a ladder, counts between the ranges going to the `otherwise` target;
* `Ladder.merge` : neighbours with one target become one rung;
* `Ladder.select` : the target of a count.
-/

namespace PulseSequencer

structure Rung where
  threshold : Binary64
  target : Target
deriving DecidableEq, Inhabited

abbrev Ladder := List Rung

/-- The counts `start ≤ c < stop` with their target. -/
structure CountRange where
  start : Nat
  stop : Nat
  target : Target
deriving DecidableEq, Inhabited

namespace CountRange

/-- The range of a condition other than `otherwise`: whole numbers, not empty, within the counts. -/
def ofBounds? (start stop : Binary64) (target : Target) : Option CountRange :=
  if start.isWhole && stop.isWhole && decide (0 ≤ start) && decide (stop ≤ .ofNat Condition.countLimit) &&
      decide (start < stop) then
    some ⟨start.toWhole.toNat, stop.toWhole.toNat, target⟩
  else none

/-- The ranges of a jump's conditions, in the order of the conditions. -/
def ofConditions (jump : String) : List Condition → Except Fault (List CountRange)
  | [] => .ok []
  | c :: rest =>
    match c.range? with
    | none => ofConditions jump rest
    | some (start, stop) =>
      match ofBounds? start stop c.target with
      | none =>
        .error ⟨.invalidDefinition, some jump, s!"Jump '{jump}' has an invalid count range [{start}, {stop})"⟩
      | some range => do return range :: (← ofConditions jump rest)

end CountRange

namespace Ladder

/-- The rungs below `current` for ranges that come with descending stops. -/
def descend (jump : String) (otherwise : Target) : Nat → List CountRange → Except Fault Ladder
  | current, [] => .ok (if 0 < current then [⟨0, otherwise⟩] else [])
  | current, range :: rest =>
    if current < range.stop then
      .error ⟨.overlappingConditions, some jump,
        s!"Jump '{jump}' has overlapping conditions at [{range.start}, {range.stop})"⟩
    else do
      let below ← descend jump otherwise range.start rest
      let gap := if range.stop < current then [⟨.ofNat range.stop, otherwise⟩] else []
      return gap ++ ⟨.ofNat range.start, range.target⟩ :: below

/-- Merges the rungs that follow `last` into it as long as they have its target. The merged rung keeps the lower
threshold. -/
def mergeFrom (last : Rung) : Ladder → Ladder
  | [] => [last]
  | r :: rest =>
    if last.target = r.target then mergeFrom ⟨last.threshold.min r.threshold, last.target⟩ rest
    else last :: mergeFrom r rest

def merge : Ladder → Ladder
  | [] => []
  | r :: rest => mergeFrom r rest

def select (ladder : Ladder) (count : Binary64) : Except Fault Target :=
  match ladder.find? fun r => decide (r.threshold ≤ count) with
  | some r => .ok r.target
  | none => .error ⟨.internal, none, s!"No condition covers count {count}"⟩

def text (ladder : Ladder) : String :=
  String.intercalate ", " (ladder.map fun r => ">=" ++ r.threshold.text ++ " → " ++ r.target.text)

end Ladder

namespace Jump

def ladder (j : Jump) : Except Fault Ladder := do
  let rules ← j.rules
  let ranges ← CountRange.ofConditions j.name rules
  match rules.reverse.find? Condition.isOtherwise with
  | none => .error ⟨.internal, some j.name, s!"Jump '{j.name}' has no else condition"⟩
  | some otherwise =>
    Ladder.descend j.name otherwise.target Condition.countLimit
      (Sort.sortBy (fun a b => decide (b.stop ≤ a.stop)) ranges)

/-- The ladder a jump is compiled to. -/
def mergedLadder (j : Jump) : Except Fault Ladder := do return (← j.ladder).merge

end Jump

end PulseSequencer
