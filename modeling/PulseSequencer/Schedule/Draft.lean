import PulseSequencer.Schedule.Instruction
import PulseSequencer.Sort

/-!
# Drafts of programs

A draft is the list of instructions of a program under construction. Every pass replaces the list and keeps the one
before it; the instructions themselves are on one board, so a change to one shows in all lists.

* `Draft.append`, `Draft.supersede`, `Draft.undo` : the list and its past;
* `Draft.sort`, `Draft.mergeSets`, `Draft.inheritOutputs`, `Draft.fillGaps` : passes over the list;
* `Draft.applyPolarity`, `Draft.assignAddresses`, `Draft.encode` : the final steps.
-/

namespace PulseSequencer

structure Draft where
  board : Board
  /-- The instructions, as labels. -/
  list : List Label
  /-- The lists before, the latest one first. -/
  past : List (List Label)
deriving Inhabited

namespace Draft

def empty : Draft := ⟨.empty, [], []⟩

def append (d : Draft) (labels : List Label) : Draft := { d with list := d.list ++ labels }

def supersede (d : Draft) (labels : List Label) : Draft := { d with list := labels, past := d.list :: d.past }

/-- The list before the last pass, if there was one. -/
def undo (d : Draft) : Bool × Draft :=
  match d.past with
  | [] => (false, d)
  | list :: past => (true, { d with list, past })

/-- Labels sorted by tick, then by opcode. -/
def sorted (b : Board) (labels : List Label) : List Label :=
  Sort.sortBy (fun x y => (b.get x).before (b.get y)) labels

def sort (d : Draft) : Draft := d.supersede (sorted d.board d.list)

def sets (d : Draft) : List Label := d.list.filter fun l => (d.board.get l).isSet

/-! ## Merging SETs -/

/-- The SETs to be united: those of a block at a tick, or those of no block at a tick without blocks. -/
structure Group where
  time : Int
  block : Option String
deriving DecidableEq

/-- The block that the free SETs of a tick join: that of the first SET there that has one. -/
def hostAt (b : Board) (sets : List Label) (time : Int) : Option String :=
  sets.findSome? fun l => if (b.get l).time = time then (b.get l).block else none

/-- Each element once, at its first place. -/
def distinct {α : Type} [DecidableEq α] (xs : List α) : List α :=
  xs.foldl (fun seen x => if seen.contains x then seen else seen ++ [x]) []

/-- The groups in order: those of blocks as they first occur, then the free ones. -/
def groups (b : Board) (sets : List Label) : List Group :=
  let blocked := sets.filter fun l => (b.get l).block.isSome
  let free := sets.filter fun l => (b.get l).block.isNone && (hostAt b sets (b.get l).time).isNone
  distinct (blocked.map fun l => ⟨(b.get l).time, (b.get l).block⟩) ++
    distinct (free.map fun l => ⟨(b.get l).time, none⟩)

/-- The SETs of a group; the free SETs of the tick come last if the block is their host. -/
def members (b : Board) (sets : List Label) (g : Group) : List Label :=
  let here := sets.filter fun l => (b.get l).time == g.time
  let own := here.filter fun l => (b.get l).block == g.block
  if g.block.isSome && hostAt b sets g.time == g.block then own ++ here.filter fun l => (b.get l).block.isNone
  else own

/-- A SET alone stays, several are united. -/
def uniteGroup (controlMask : Int) (acc : List Label × Board) (group : List Label) : Attempt (List Label × Board) :=
  match group with
  | [l] => pure (acc.1 ++ [l], acc.2)
  | ls => do
    let (l, b) ← acc.2.unite controlMask ls
    return (acc.1 ++ [l], b)

/-- Merges the SETs that share a tick. SETs of different blocks stay apart, free ones join the first block. -/
def mergeSets (d : Draft) (controlMask : Int) : Attempt Draft := do
  let sets := d.sets
  let others := d.list.filter fun l => !(d.board.get l).isSet
  let gathered := (groups d.board sets).map (members d.board sets)
  let (united, board) ← gathered.foldlM (uniteGroup controlMask) ([], d.board)
  return { d with board }.supersede (sorted board (others ++ united))

/-! ## Running state -/

/-- Every SET takes the bits of `mask` that it leaves open from the SET before it. -/
def inheritFrom (mask : Int) (previous : Label) (b : Board) : List Label → Board
  | [] => b
  | l :: rest => inheritFrom mask l (b.inherit l previous mask) rest

def inheritOutputs (d : Draft) (mask : Int) : Except Fault Draft :=
  let d := d.sort
  match d.sets with
  | [] => .ok d
  | first :: rest =>
    let time := d.board.time first
    if time ≠ 0 then .error ⟨.internal, none, "First SET is at tick " ++ wholeText time ++ ", not 0"⟩
    else .ok { d with board := inheritFrom mask first d.board rest }

def applyPolarity (d : Draft) (polarity : Int) : Draft :=
  { d with board := d.sets.foldl (fun b l => b.modify l fun i => i.withDrive { i.drive with polarity }) d.board }

/-! ## Gaps -/

def sameTick (time : Int) : Fault := ⟨.internal, none, "Two instructions at tick " ++ wholeText time⟩

/-- Fills the ticks between the instruction at `last` and the following ones; `held` is the SET before them. A single
tick is a SET that holds the bus, a longer gap is a WAIT. -/
def fillFrom (last : Int) (held : Option Label) (b : Board) : List Label → Except Fault (List Label × Board)
  | [] => .ok ([], b)
  | l :: rest => do
    let time := b.time l
    let gap := time - last - 1
    let next := if (b.get l).isSet then some l else held
    if gap < 0 then throw (sameTick time)
    else if 2 ≤ gap then
      let (wait, b) := b.addWait (last + 1) (.ofInt (gap - 1)) none
      let (filled, b) ← fillFrom time next b rest
      return (wait :: l :: filled, b)
    else if gap = 1 then
      match held with
      | none => throw ⟨.internal, none, "No SET before the gap at tick " ++ wholeText (last + 1)⟩
      | some h =>
        let d := (b.get h).drive
        let (hold, b) ← b.addSet (last + 1) d.value d.mask none false
        let b := b.modify hold fun i => i.withDrive { i.drive with polarity := d.polarity }
        let (filled, b) ← fillFrom time next b rest
        return (hold :: l :: filled, b)
    else
      let (filled, b) ← fillFrom time next b rest
      return (l :: filled, b)

def fillGaps (d : Draft) : Except Fault Draft := do
  let (filled, board) ← fillFrom (-1) none d.board (sorted d.board d.list)
  return { d with board }.supersede filled

/-! ## Addresses and words -/

/-- Addresses from `next` on, for ticks that increase from `last`. -/
def addressFrom (last : Int) (next : Nat) (b : Board) : List Label → Except Fault Board
  | [] => .ok b
  | l :: rest =>
    let time := b.time l
    if time ≤ last then .error (sameTick time)
    else addressFrom time (next + 1) (b.modify l fun i => { i with address := some (next : Int) }) rest

def assignAddresses (d : Draft) : Except Fault Draft := do
  let d := d.sort
  return { d with board := ← addressFrom (-1) 1 d.board d.list }

def encode (d : Draft) : Except Fault (List Word) := d.list.mapM d.board.encode

def count (d : Draft) (opcode : Nat) : Nat := d.list.countP fun l => (d.board.get l).opcode == opcode

def text (d : Draft) : String := String.intercalate "\n" (d.list.map d.board.text)

end Draft

end PulseSequencer
