import PulseSequencer.Binary64.Arithmetic
import PulseSequencer.Binary64.Decimal
import PulseSequencer.Fault

/-!
# Control variables

A control variable has one value per variant of a sequence: a constant, an even spread from a start to a stop, or an
expression in an evenly spread argument.

* `Expression.eval` : the value of an expression at an argument;
* `ControlVariable.valueAt` : the value in one variant;
* `Valuation` : the values of all variables, in order of first definition; `Valuation.ofVariables` computes it;
* `ControlVariable.check` : a name, finite parameters and a finite value in every variant.
-/

namespace PulseSequencer

/-- An expression in one argument. -/
inductive Expression where
  | literal (value : Binary64)
  | argument
  | add (a b : Expression)
  | sub (a b : Expression)
  | mul (a b : Expression)
  | div (a b : Expression)
  | sqrt (a : Expression)
  | floor (a : Expression)
deriving DecidableEq, Inhabited

def Expression.eval (x : Binary64) : Expression → Binary64
  | literal value => value
  | argument => x
  | add a b => a.eval x + b.eval x
  | sub a b => a.eval x - b.eval x
  | mul a b => a.eval x * b.eval x
  | div a b => a.eval x / b.eval x
  | sqrt a => (a.eval x).sqrt
  | floor a => (a.eval x).floor

inductive VariableRule where
  | constant (value : Binary64)
  | linear (start stop : Binary64)
  | expression (body : Expression) (start stop : Binary64)
deriving DecidableEq, Inhabited

structure ControlVariable where
  name : String
  rule : VariableRule
deriving DecidableEq, Inhabited

/-- The sample of the given index among `count` evenly spaced ones from `start` to `stop`. -/
def evenSample (start stop count index : Binary64) : Binary64 :=
  if count ≤ 1 then start else start + (stop - start) * index / (count - 1)

/-- Values by variable name. -/
abbrev Valuation := List (String × Binary64)

namespace Valuation

def get? (v : Valuation) (name : String) : Option Binary64 := (v.find? fun e => e.1 == name).map Prod.snd

/-- Sets a value; a name that is there already keeps its place. -/
def put (v : Valuation) (name : String) (value : Binary64) : Valuation :=
  if v.any fun e => e.1 == name then v.map fun e => if e.1 == name then (name, value) else e
  else v ++ [(name, value)]

end Valuation

namespace ControlVariable

/-- The value in a variant, of so many variants. -/
def valueAt (c : ControlVariable) (variant variants : Binary64) : Except Fault Binary64 :=
  match c.rule with
  | .constant value => .ok value
  | .linear start stop => .ok (evenSample start stop variants variant)
  | .expression body start stop =>
    let x := evenSample start stop variants variant
    let value := body.eval x
    if value.isFinite then .ok value
    else
      .error ⟨.invalidVariable, some c.name, s!"Variable '{c.name}' evaluates to {value} at x = {x}"⟩

def parameters (c : ControlVariable) : List Binary64 :=
  match c.rule with
  | .constant value => [value]
  | .linear start stop => [start, stop]
  | .expression _ start stop => [start, stop]

def check (c : ControlVariable) (variants : Binary64) : Except Fault Unit :=
  if c.name.isEmpty then .error ⟨.invalidVariable, some c.name, "Control variable without a name"⟩
  else if c.parameters.any fun n => !n.isFinite then
    .error ⟨.invalidVariable, some c.name, s!"Variable '{c.name}' has a non-finite parameter"⟩
  else
    (List.range variants.countBelow).forM fun variant => do
      let _ ← c.valueAt (.ofNat variant) variants

end ControlVariable

/-- The values of all variables in a variant; a later variable of the same name replaces the value. -/
def Valuation.ofVariables (controls : List ControlVariable) (variant variants : Binary64) :
    Except Fault Valuation :=
  controls.foldlM (fun v c => do return v.put c.name (← c.valueAt variant variants)) []

end PulseSequencer
