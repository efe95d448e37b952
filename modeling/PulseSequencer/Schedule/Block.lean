import PulseSequencer.Schedule.Draft
import PulseSequencer.Text.Collation

/-!
# Blocks of instructions

The instructions of a block stay together. Blocks that overlap are moved later as a whole.

* `Block` : the ticks a block takes, its members, and the tick it is attached to;
* `Block.collect` : the blocks of a list of instructions, in order of their ticks;
* `Block.separate` : blocks that do not overlap.
-/

namespace PulseSequencer

structure Block where
  name : String
  start : Int
  finish : Int
  /-- The tick the block is attached to: its jump, or its first member if it has only markers. -/
  anchor : Int
  members : List Label
deriving DecidableEq, Inhabited

namespace Block

/-- The block of the control write that marks the start. -/
def startName : String := "_START"

/-- The block of the final END, which never moves. -/
def endName : String := "_END"

def isMarker (i : Instruction) : Bool := i.isSet && i.drive.marker

/-- The time of the last member that is no marker; of the last member in the final block. -/
def anchorOf (b : Board) (name : String) (first : Label) (members : List Label) : Int :=
  let late := members.reverse
  if name = endName then b.time (late.headD first)
  else
    match late.find? fun l => !isMarker (b.get l) with
    | some l => b.time l
    | none => b.time first

def ofMembers (b : Board) (name : String) (members : List Label) : Block :=
  let members := Sort.sortBy (fun x y => decide (b.time x ≤ b.time y)) members
  match members with
  | [] => ⟨name, 0, 0, 0, []⟩
  | first :: rest => ⟨name, b.time first, b.time (rest.getLastD first), anchorOf b name first members, members⟩

def before [Collation] (x y : Block) : Bool :=
  x.start < y.start ||
    (x.start == y.start &&
      (x.finish < y.finish || (x.finish == y.finish && (Collation.compare x.name y.name).isLE)))

/-- The blocks by start, then by end, then by name. -/
def collect [Collation] (b : Board) (labels : List Label) : List Block :=
  let names := Draft.distinct (labels.filterMap fun l => (b.get l).block)
  Sort.sortBy before (names.map fun name => ofMembers b name (labels.filter fun l => (b.get l).block == some name))

def moveBy (offset : Int) (x : Block) : Block :=
  { x with start := x.start + offset, finish := x.finish + offset, anchor := x.anchor + offset }

def moveMembers (offset : Int) (b : Board) (members : List Label) : Board :=
  members.foldl (fun b l => b.modify l fun i => { i with time := i.time + offset }) b

/-- Moves every block behind the one before it, `previous` being the last one placed. -/
def separateAfter (previous : Block) (b : Board) : List Block → Attempt (List Block × Board)
  | [] => pure ([], b)
  | x :: rest =>
    if previous.finish < x.start then do
      let (placed, b) ← separateAfter x b rest
      return (x :: placed, b)
    else if x.name = endName then
      .fail ⟨.sequenceTooShort, some previous.name, s!"Block '{previous.name}' runs into the end of the sequence"⟩
    else do
      let offset := previous.finish - x.start + 1
      let shift := wholeText offset
      .warn s!"Moving block '{x.name}' by {shift} ticks to avoid block '{previous.name}'" (some x.name)
      let moved := x.moveBy offset
      let (placed, b) ← separateAfter moved (moveMembers offset b x.members) rest
      return (moved :: placed, b)

def separate (b : Board) : List Block → Attempt (List Block × Board)
  | [] => pure ([], b)
  | first :: rest => do
    let (placed, b) ← separateAfter first b rest
    return (first :: placed, b)

end Block

end PulseSequencer
