import PulseSequencer.Json.Basic
import PulseSequencer.Sequence.Basic
import PulseSequencer.Branch.Ladder

/-!
# Reading descriptions

The JSON forms of the parts of a description; every reader gives `none` for a value that is not of its form.

* `Sequence.ofJson?`, `Hardware.ofJson?` : fill in what may be left out;
* readers for time points, jumps, channels and control variables below them.
-/

namespace PulseSequencer

namespace Json

def stringAt? (j : Json) (name : String) : Option String := (j.member? name).bind asString?

def numberAt? (j : Json) (name : String) : Option Binary64 := (j.member? name).bind asNumber?

def boolAt? (j : Json) (name : String) : Option Bool := (j.member? name).bind asBool?

/-- A member that is a list, all of whose items can be read. -/
def listAt? {α : Type} (read : Json → Option α) (j : Json) (name : String) : Option (List α) := do
  (← (← j.member? name).asArray?).mapM read

/-- The same, empty if there is no such member. -/
def listOr {α : Type} (read : Json → Option α) (j : Json) (name : String) : Option (List α) :=
  match j.member? name with
  | none => some []
  | some _ => listAt? read j name

def numberOr (default : Binary64) (j : Json) (name : String) : Option Binary64 :=
  match j.member? name with
  | none => some default
  | some value => value.asNumber?

end Json

def Reference.ofJson? (j : Json) : Option Reference := do
  match ← j.stringAt? "kind" with
  | "start" => return .start (← j.stringAt? "window")
  | "end" => return .finish (← j.stringAt? "window")
  | "jump" => return .jump (← j.stringAt? "jump")
  | "variable" => return .control (← j.stringAt? "variable")
  | _ => none

def Offset.ofJson? (j : Json) : Option Offset := do
  match ← j.stringAt? "kind" with
  | "absolute" => return .absolute (← j.numberAt? "value")
  | "variable" => return .control (← j.stringAt? "variable")
  | _ => none

def TimePoint.ofJson? (j : Json) : Option TimePoint := do
  match ← j.stringAt? "kind" with
  | "absolute" => return .absolute (← j.numberAt? "value")
  | "variable" => return .control (← j.stringAt? "variable")
  | "relative" =>
    return .relative (← Reference.ofJson? (← j.member? "reference")) (← Offset.ofJson? (← j.member? "offset"))
  | _ => none

def Window.ofJson? (j : Json) : Option Window := do
  return {
    name := ← j.stringAt? "name"
    start := ← TimePoint.ofJson? (← j.member? "start")
    finish := ← TimePoint.ofJson? (← j.member? "end") }

def Target.ofJson? (j : Json) : Option Target := do
  match ← j.stringAt? "kind" with
  | "pass" => return .pass
  | "terminate" => return .terminate
  | "destination" => return .destination (← Reference.ofJson? (← j.member? "reference"))
  | _ => none

def Condition.ofJson? (j : Json) : Option Condition := do
  let target ← Target.ofJson? (← j.member? "target")
  match ← j.stringAt? "kind" with
  | "value" => return .exactly (← j.numberAt? "value") target
  | "threshold" => return .atLeast (← j.numberAt? "threshold") target
  | "range" => return .between (← j.numberAt? "from") (← j.numberAt? "to") target
  | "else" => return .otherwise target
  | _ => none

def JumpAction.ofJson? (j : Json) : Option JumpAction := do
  match ← j.stringAt? "kind" with
  | "conditional" => return .branch (← j.stringAt? "window") (← j.listAt? Condition.ofJson? "conditions")
  | "goto" => return .goto (← Reference.ofJson? (← j.member? "destination"))
  | "end" => return .terminate
  | _ => none

def Jump.ofJson? (j : Json) : Option Jump := do
  return {
    name := ← j.stringAt? "name"
    time := ← TimePoint.ofJson? (← j.member? "time")
    action := ← JumpAction.ofJson? j }

def Role.ofJson? (j : Json) : Option Role := do
  match ← j.stringAt? "kind" with
  | "output" => return .output
  | "counter" => return .counter
  | "control" => return .control (← j.listAt? Jump.ofJson? "jumps")
  | _ => none

def Channel.ofJson? (j : Json) : Option Channel := do
  return {
    name := ← j.stringAt? "name"
    windows := ← j.listAt? Window.ofJson? "windows"
    role := ← Role.ofJson? j }

/-- A number, the argument `"x"`, or an operator in front of its operands. -/
def Expression.ofJson? : Json → Option Expression
  | .number n => some (.literal n)
  | .string "x" => some .argument
  | .array [.string op, a] =>
    match op with
    | "sqrt" => (ofJson? a).map Expression.sqrt
    | "floor" => (ofJson? a).map Expression.floor
    | _ => none
  | .array [.string op, a, b] =>
    match ofJson? a, ofJson? b with
    | some x, some y =>
      match op with
      | "+" => some (.add x y)
      | "-" => some (.sub x y)
      | "*" => some (.mul x y)
      | "/" => some (.div x y)
      | _ => none
    | _, _ => none
  | _ => none

def VariableRule.ofJson? (j : Json) : Option VariableRule := do
  match ← j.stringAt? "kind" with
  | "constant" => return .constant (← j.numberAt? "value")
  | "linear" => return .linear (← j.numberAt? "start") (← j.numberAt? "stop")
  | "expression" =>
    let expression ← Expression.ofJson? (← j.member? "expression")
    return .expression expression (← j.numberAt? "from") (← j.numberAt? "to")
  | _ => none

def ControlVariable.ofJson? (j : Json) : Option ControlVariable := do
  return { name := ← j.stringAt? "name", rule := ← VariableRule.ofJson? j }

def OutputLine.ofJson? (j : Json) : Option OutputLine := do
  return {
    name := ← j.stringAt? "name"
    channel := ← j.numberAt? "channelId"
    activeHigh := ← j.boolAt? "polarity"
    idleHigh := ← j.boolAt? "idleState" }

def InputLine.ofJson? (j : Json) : Option InputLine := do
  return { name := ← j.stringAt? "name", channel := ← j.numberAt? "channelId" }

def PulseCounter.ofJson? (j : Json) : Option PulseCounter := do
  return { name := ← j.stringAt? "name", channel := ← j.numberAt? "channelId", gate := ← j.numberAt? "gate" }

def RegisterBit.ofJson? (j : Json) : Option RegisterBit := do
  return { bit := ← j.numberAt? "bit", output := ← j.numberAt? "output", input := ← j.numberAt? "input" }

/-- Only the name is required. -/
def Hardware.ofJson? (j : Json) : Option Hardware := do
  return {
    name := ← j.stringAt? "name"
    delayUnit := ← j.numberOr Hardware.defaultDelayUnit "fpgaDelayUnit"
    outputs := ← j.listOr OutputLine.ofJson? "outputs"
    inputs := ← j.listOr InputLine.ofJson? "counters"
    counters := ← j.listOr PulseCounter.ofJson? "spcs"
    register := ←
      match j.member? "controlRegister" with
      | none => some []
      | some r => r.listAt? RegisterBit.ofJson? "bits" }

/-- Name, length and hardware are required; shots and variants default to 1. -/
def Sequence.ofJson? (j : Json) : Option Sequence := do
  return {
    name := ← j.stringAt? "name"
    length := ← j.numberAt? "length"
    shots := ← j.numberOr 1 "shots"
    variants := ← j.numberOr 1 "variants"
    hardware := ← Hardware.ofJson? (← j.member? "hardware")
    controls := ← j.listOr ControlVariable.ofJson? "controlVariables"
    channels := ← j.listOr Channel.ofJson? "channels" }

end PulseSequencer
