import PulseSequencer.Branch.Tree
import PulseSequencer.Hardware.Check

/-!
# Checks of sequences

The description is checked first, then the times of every variant; the first failure is reported with the entity at
fault.

* `Sequence.checkCounts`, `Sequence.checkVariables`, `Sequence.checkNames`, `Sequence.checkChannel`,
  `Sequence.checkJump` : the description;
* `Sequence.checkTiming` : the times of one variant;
* `Sequence.verify` : all of it.
-/

namespace PulseSequencer.Sequence

def invalid (subject message : String) : Fault := ⟨.invalidDefinition, some subject, message⟩

/-- Fails unless the condition holds. -/
def require (condition : Bool) (f : Fault) : Except Fault Unit := if condition then .ok () else .error f

/-! ## Description -/

/-- A whole number from 1 on. -/
def isCount (n : Binary64) : Bool := n.isWhole && decide (1 ≤ n)

def checkCounts (s : Sequence) : Except Fault Unit := do
  require (decide (0 < s.length)) (invalid s.name s!"Sequence length must be positive, got {s.length}")
  require (isCount s.variants) (invalid s.name s!"Sequence needs at least one variant, got {s.variants}")
  require (isCount s.shots) (invalid s.name s!"Sequence needs at least one shot, got {s.shots}")

def checkVariablesFrom (variants : Binary64) : (seen : List String) → List ControlVariable → Except Fault Unit
  | _, [] => .ok ()
  | seen, c :: rest => do
    require (!seen.contains c.name)
      ⟨.invalidVariable, some c.name, s!"Duplicate control variable '{c.name}'"⟩
    c.check variants
    checkVariablesFrom variants (c.name :: seen) rest

def checkVariables (s : Sequence) : Except Fault Unit := checkVariablesFrom s.variants [] s.controls

def isReserved (name : String) : Bool := name.toList.head? == some '_'

/-- The names of windows, or of jumps: not reserved and not used before. Gives the names used after them. -/
def claimNames (what title : String) (used : List String) : List String → Except Fault (List String)
  | [] => .ok used
  | name :: rest => do
    require (!isReserved name) (invalid name s!"{title} name '{name}' must not start with '_'")
    require (!used.contains name) (invalid name s!"Duplicate {what} '{name}'")
    claimNames what title (used ++ [name]) rest

/-- Names used so far. -/
structure Names where
  channels : List String
  windows : List String
  jumps : List String

def claimChannel (used : Names) (c : Channel) : Except Fault Names := do
  require (!used.channels.contains c.name) (invalid c.name s!"Duplicate channel '{c.name}'")
  let windows ← claimNames "window" "Window" used.windows (c.windows.map Window.name)
  let jumps ← claimNames "jump" "Jump" used.jumps (c.jumps.map Jump.name)
  return ⟨c.name :: used.channels, windows, jumps⟩

def checkNames (s : Sequence) : Except Fault Unit := do
  let used ← s.channels.foldlM claimChannel ⟨[], [], []⟩
  used.jumps.forM fun name =>
    require (!used.windows.contains name) (invalid name s!"'{name}' names both a window and a jump")

/-- Every channel runs on a line of the hardware. -/
def checkChannel (s : Sequence) (c : Channel) : Except Fault Unit :=
  match c.role with
  | .output => do let _ ← outputLine s.hardware c.name
  | .counter => do let _ ← inputLine s.hardware c.name
  | .control _ => do let _ ← pulseCounter s.hardware c.name

def checkDestinationWindow (s : Sequence) (jump window : String) : Except Fault Unit :=
  require (s.window? window).isSome
    ⟨.unresolvedReference, some jump, s!"Jump '{jump}' goes to unknown window '{window}'"⟩

/-- A jump goes to a window boundary, or to a jump that does not branch. -/
def checkDestination (s : Sequence) (jump : String) : Reference → Except Fault Unit
  | .control name =>
    let place := (Reference.control name).text
    .error (invalid jump s!"Jump '{jump}' must go to a window boundary or a jump, not {place}")
  | .start window => s.checkDestinationWindow jump window
  | .finish window => s.checkDestinationWindow jump window
  | .jump name =>
    match s.jump? name with
    | none => .error ⟨.unresolvedReference, some jump, s!"Jump '{jump}' goes to unknown jump '{name}'"⟩
    | some target =>
      require (!target.isBranch) (invalid jump s!"Jump '{jump}' must not go to conditional jump '{name}'")

def checkTargets (s : Sequence) (jump : String) (targets : List Target) : Except Fault Unit :=
  targets.forM fun t =>
    match t with
    | .destination r => s.checkDestination jump r
    | _ => .ok ()

/-- The window a branch tests belongs to its channel, its conditions make a ladder, and its targets differ. -/
def checkJump (s : Sequence) (j : Jump) (c : Channel) : Attempt Unit := do
  match j.action with
  | .branch window _ =>
    Attempt.ofExcept (require (c.windows.any fun w => w.name == window)
      (invalid j.name s!"Jump '{j.name}' tests window '{window}', which is not in channel '{c.name}'"))
  | _ => pure ()
  let rules ← Attempt.ofExcept j.rules
  Attempt.record j.missingOtherwise
  let _ ← Attempt.ofExcept j.ladder
  let targets := rules.map Condition.target
  if j.isBranch then
    Attempt.ofExcept (require (!targets.all (· == .pass)) (invalid j.name s!"Jump '{j.name}' always passes"))
    Attempt.ofExcept
      (require (!targets.all (· == .terminate)) (invalid j.name s!"Jump '{j.name}' always terminates"))
  Attempt.ofExcept (s.checkTargets j.name targets)

/-! ## Times of a variant -/

/-- The shortest window that gates a counter, in µs. -/
def minControlWindow : Nat := 1

/-- A window at its times. -/
structure Span where
  name : String
  start : Binary64
  finish : Binary64

def checkInside (s : Sequence) (subject : String) (time : Binary64) : Except Fault Unit :=
  require (decide (0 ≤ time) && decide (time ≤ s.length))
    (invalid subject s!"Time {time} of '{subject}' is outside the sequence [0, {s.length}]")

/-- The times of a window, within the sequence and in order. -/
def spanOf (s : Sequence) (t : Timeline) (c : Channel) (w : Window) : Except Fault Span := do
  let start ← t.startOf w.name
  let finish ← t.finishOf w.name
  s.checkInside w.name start
  s.checkInside w.name finish
  require (!decide (finish < start)) (invalid w.name s!"Window '{w.name}' ends before it starts")
  require (!(c.isControl && decide (finish - start < .ofNat minControlWindow)))
    (invalid w.name s!"Control window '{w.name}' is shorter than {minControlWindow} µs")
  return ⟨w.name, start, finish⟩

/-- Neighbours of a list that is sorted by start do not overlap. -/
def checkOverlap (channel : String) : List Span → Except Fault Unit
  | a :: b :: rest => do
    require (!decide (b.start < a.finish))
      ⟨.overlappingWindows, some b.name, s!"Window '{b.name}' overlaps '{a.name}' in channel '{channel}'"⟩
    checkOverlap channel (b :: rest)
  | _ => .ok ()

def spansOf (s : Sequence) (t : Timeline) (c : Channel) : Except Fault (List Span) := do
  let spans ← c.windows.mapM (s.spanOf t c)
  match c.role with
  | .output => checkOverlap c.name (Sort.sortBy (fun a b => !decide (b.start < a.start)) spans)
  | _ => pure ()
  return spans

/-- A time with the name of what happens then. -/
abbrev Event := Binary64 × String

/-- The latest entry at a time. -/
def eventAt? (events : List Event) (time : Binary64) : Option String :=
  (events.reverse.find? fun e => e.1.sameKey time).map Prod.snd

/-- The times of the destinations a jump can go to. -/
def destinationsOf (t : Timeline) (j : Jump) : Except Fault (List Event) := do
  let targets := (← j.rules).map Condition.target
  let times ← targets.filterMapM fun target =>
    match target with
    | .destination r => do return some ((← t.timeOf r j.name), j.name)
    | _ => pure none
  return times

/-- A jump has a time of its own, inside the sequence and off the boundaries. Gives the jumps and destinations
after it. -/
def checkJumpTime (s : Sequence) (t : Timeline) (boundaries : List Event)
    (acc : List Event × List Event) (j : Jump) : Except Fault (List Event × List Event) := do
  let time ← t.jumpTime j.name
  s.checkInside j.name time
  match eventAt? acc.1 time with
  | some clash =>
    throw ⟨.jumpCollision, some j.name, s!"Jumps '{clash}' and '{j.name}' happen at the same time {time}"⟩
  | none => pure ()
  match eventAt? boundaries time with
  | some window =>
    throw ⟨.jumpCollision, some j.name, s!"Jump '{j.name}' coincides with a boundary of window '{window}'"⟩
  | none => pure ()
  return (acc.1 ++ [(time, j.name)], acc.2 ++ (← destinationsOf t j))

/-- The counting period of a branch: nothing lands in it, and no other window of the channel ends before the jump. -/
def checkCounting (t : Timeline) (destinations : List Event) (j : Jump) (c : Channel) : Except Fault Unit := do
  match j.action with
  | .branch window _ =>
    let time ← t.jumpTime j.name
    let start ← t.startOf window
    let finish ← t.finishOf window
    require (!decide (time < finish)) (invalid j.name s!"Window '{window}' of jump '{j.name}' ends after the jump")
    destinations.forM fun (landing, source) =>
      require (!(decide (start < landing) && decide (landing < time)))
        (invalid j.name s!"Jump '{source}' lands inside the counting period of '{j.name}'")
    c.windows.forM fun w => do
      if w.name != window then
        let other ← t.finishOf w.name
        require (!(decide (other ≤ time) && decide (finish < other)))
          (invalid j.name s!"Window '{w.name}' ends between window '{window}' and jump '{j.name}'")
  | _ => pure ()

/-- The times of one variant. -/
def checkTiming (s : Sequence) (variant : Binary64) : Except Fault Unit := do
  let t ← Timeline.ofVariant s variant
  let spans ← s.channels.flatMapM (s.spansOf t)
  let boundaries := spans.flatMap fun w => [(w.start, w.name), (w.finish, w.name)]
  let (_, destinations) ← (s.jumps.map Prod.fst).foldlM (s.checkJumpTime t boundaries) ([], [])
  s.jumps.forM fun (j, c) => checkCounting t destinations j c
  let (tree, _) ← Tree.build (← JumpGraph.ofTimeline t)
  tree.check s.name

/-! ## The whole -/

def verify (s : Sequence) : Attempt Unit := do
  Attempt.ofExcept s.checkCounts
  Attempt.ofExcept s.hardware.check
  Attempt.ofExcept s.checkVariables
  Attempt.ofExcept s.checkNames
  Attempt.ofExcept (s.channels.forM s.checkChannel)
  s.jumps.forM fun (j, c) => s.checkJump j c
  Attempt.ofExcept ((List.range s.variants.countBelow).forM fun variant => s.checkTiming (.ofNat variant))

end PulseSequencer.Sequence
