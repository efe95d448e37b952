import PulseSequencer.Binary64.Decimal

/-!
# JSON values

* `Json` : a value; objects keep the order of their members;
* `Json.member?` : the member of an object by name.
-/

namespace PulseSequencer

inductive Json where
  | null
  | bool (b : Bool)
  | number (n : Binary64)
  | string (s : String)
  | array (items : List Json)
  | object (members : List (String × Json))
deriving Inhabited

namespace Json

/-- The last member of that name counts. -/
def member? (name : String) : Json → Option Json
  | object members => (members.reverse.find? fun m => m.1 == name).map Prod.snd
  | _ => none

def asString? : Json → Option String
  | string s => some s
  | _ => none

def asNumber? : Json → Option Binary64
  | number n => some n
  | _ => none

def asBool? : Json → Option Bool
  | bool b => some b
  | _ => none

def asArray? : Json → Option (List Json)
  | array items => some items
  | _ => none

end Json

end PulseSequencer
