import PulseSequencer.Code.Word
import PulseSequencer.Compiler.Options
import PulseSequencer.Json.Writer

/-!
# Reports of compilations

* `Report` : the options, the variant with its control values, and the words;
* `Report.toJson`, `Report.summary` : its JSON value and its text.
-/

namespace PulseSequencer

structure Report where
  options : Options
  values : Valuation
  variant : Binary64
  delayUnit : Binary64
  /-- Length in ticks. -/
  length : Binary64
  hasJumps : Bool
  words : List Word
deriving Inhabited

namespace Report

/-- The number a name is the plain decimal of, below `2 ^ 32 - 1`. -/
def index? (name : String) : Option Nat :=
  let digits := name.toList
  if digits.isEmpty || !digits.all Char.isDigit || (digits.length > 1 && digits.head? == some '0') then none
  else
    let n := digits.foldl (fun n c => n * 10 + (c.toNat - 48)) 0
    if n < 0xFFFFFFFF then some n else none

/-- Control values as they are listed: names that are numbers first, in ascending order, then the others. -/
def listed (values : Valuation) : Valuation :=
  let numbered := values.filter fun e => (index? e.1).isSome
  Sort.sortBy (fun a b => decide ((index? a.1).getD 0 ≤ (index? b.1).getD 0)) numbered ++
    values.filter fun e => (index? e.1).isNone

def valuesJson (values : Valuation) : Json := .object ((listed values).map fun e => (e.1, .number e.2))

def toJson (r : Report) : Json :=
  .object [
    ("flags", .object [("truncate", .bool r.options.truncate),
      ("controlRegisterHighTime", .number r.options.highTime)]),
    ("constants", .object [("maxJumpConditions", .number r.options.maxConditions)]),
    ("controlValues", valuesJson r.values),
    ("variant", .number r.variant),
    ("fpgaDelayUnit", .number r.delayUnit),
    ("length", .number r.length),
    ("containsJumps", .bool r.hasJumps),
    ("compiled", .array (r.words.map fun w => .number (.ofNat w.toNat)))]

def yesNo (b : Bool) : String := if b then "yes" else "no"

def summary (r : Report) : String :=
  let count := Decimal.digitText r.words.length
  let jumps := yesNo r.hasJumps
  let truncate := if r.options.truncate then "true" else "false"
  let values := (listed r.values).map fun e => e.1 ++ "=" ++ e.2.text
  Text.lines ([
    s!"variant {r.variant}: {count} instructions, {r.length} ticks of {r.delayUnit} µs",
    s!"jumps: {jumps}, truncate: {truncate}, control high time: {r.options.highTime}"] ++
    if values.isEmpty then [] else ["values: " ++ String.intercalate ", " values])

end Report

end PulseSequencer
