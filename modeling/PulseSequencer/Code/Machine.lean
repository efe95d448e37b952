import PulseSequencer.Code.Word
import PulseSequencer.Binary64.Decimal

/-!
# The machine that runs a program

A SET, JUMP or END takes one tick, a WAIT one tick more than its duration. Addresses count from 1.

* `Machine` : a program with the counts its jumps test and the limits of a run;
* `Machine.State` : where a run stands, and what it has recorded;
* `Machine.step` : one tick; `Machine.run` : ticks until the machine halts;
* `Machine.Stray` : the program counter has left the program.
-/

namespace PulseSequencer

inductive Halt where
  | ended
  | jumpLimit
  | tickLimit
deriving DecidableEq, Inhabited

def Halt.name : Halt → String
  | ended => "end"
  | jumpLimit => "jump-limit"
  | tickLimit => "tick-limit"

structure Machine where
  words : Array Word
  /-- The count of a channel at the tick a jump tests it. -/
  counts : Nat → Nat → Int
  maxJumps : Nat
  maxTicks : Nat

namespace Machine

def defaultMaxJumps : Nat := 100
def defaultMaxTicks : Nat := 10000000

/-- The bus takes a new value at a tick. -/
structure Change where
  tick : Nat
  value : Nat
deriving DecidableEq

/-- A word is executed at a tick. -/
structure Visit where
  tick : Nat
  address : Nat
deriving DecidableEq

structure State where
  pc : Nat
  /-- Ticks left of a wait. -/
  delay : Nat
  bus : Int
  tick : Nat
  jumps : Nat
  halted : Option Halt
  changes : Array Change
  executed : Array Visit

def State.initial (idle : Int) : State :=
  { pc := 1, delay := 0, bus := idle, tick := 0, jumps := 0, halted := none, changes := #[], executed := #[] }

structure Stray where
  pc : Nat
  size : Nat
  tick : Nat
deriving DecidableEq

def Stray.message (e : Stray) : String :=
  "Program counter " ++ Decimal.digitText e.pc ++ " outside 1.." ++ Decimal.digitText e.size ++ " at tick " ++
    Decimal.digitText e.tick

def wordAt? (m : Machine) (address : Nat) : Option Word :=
  if address = 0 then none else m.words[address - 1]?

/-- The word at the program counter takes effect and its tick passes. The answer says whether the run goes on. -/
def execute (m : Machine) (op : Operation) (s : State) : Bool × State :=
  let next := { s with tick := s.tick + 1, executed := s.executed.push ⟨s.tick, s.pc⟩ }
  match op with
  | .wait duration => (true, { next with delay := duration, pc := s.pc + 1 })
  | .set value =>
    let changes := if (value : Int) = s.bus then s.changes else s.changes.push ⟨s.tick, value⟩
    (true, { next with bus := value, changes := changes, pc := s.pc + 1 })
  | .jump always channel threshold address =>
    if always || decide ((threshold : Int) ≤ m.counts channel s.tick) then
      if m.maxJumps < s.jumps + 1 then
        (false, { next with jumps := s.jumps + 1, halted := some .jumpLimit })
      else
        (true, { next with jumps := s.jumps + 1, pc := address })
    else (true, { next with pc := s.pc + 1 })
  | .stop => (false, { next with halted := some .ended })

/-- One tick. The answer says whether the run goes on; a halted machine stays as it is. -/
def step (m : Machine) (s : State) : Except Stray (Bool × State) :=
  if s.halted.isSome then .ok (false, s)
  else if m.maxTicks ≤ s.tick then .ok (false, { s with halted := some .tickLimit })
  else if 0 < s.delay then .ok (true, { s with delay := s.delay - 1, tick := s.tick + 1 })
  else
    match m.wordAt? s.pc with
    | none => .error ⟨s.pc, m.words.size, s.tick⟩
    | some w => .ok (m.execute (.ofWord w) s)

/-- At most so many steps. -/
def runFor (m : Machine) : Nat → State → Except Stray State
  | 0, s => .ok s
  | fuel + 1, s =>
    match m.step s with
    | .error e => .error e
    | .ok (true, s) => m.runFor fuel s
    | .ok (false, s) => .ok s

/-- Steps until the machine halts: every step that goes on passes a tick, and the tick limit ends the last one. -/
def run (m : Machine) (s : State) : Except Stray State := m.runFor (m.maxTicks - s.tick + 1) s

end Machine

end PulseSequencer
