import PulseSequencer.Schedule.Block

/-!
# Placing instructions on the line of ticks

Blocks are placed where they are. Every other instruction is then fitted around them, the latest first. Where two meet,
the weaker one (SET, then JUMP, then END) moves on to an earlier tick; one that falls into a block leaves it on the side
of the block's anchor it belongs to.

* `TickLine` : which instruction stands at which tick;
* `TickLine.settle` : one instruction finds its tick, possibly moving others;
* `Board.place` : every instruction on a tick of its own.
-/

namespace PulseSequencer

structure TickLine where
  length : Int
  blocks : List Block
  /-- The ticks that are taken, each once. -/
  taken : List (Int × Label)
deriving Inhabited

namespace TickLine

/-- More ticks cannot be laid out. -/
def maxLength : Int := 0xFFFFFFFF

def inRange (t : TickLine) (tick : Int) : Bool := 0 ≤ tick && tick < t.length

def blockAt? (t : TickLine) (tick : Int) : Option Block :=
  t.blocks.find? fun x => decide (x.start ≤ tick) && decide (tick ≤ x.finish)

def at? (t : TickLine) (tick : Int) : Option Label := (t.taken.find? fun e => e.1 == tick).map Prod.snd

def put (t : TickLine) (tick : Int) (l : Label) : TickLine :=
  { t with taken := (tick, l) :: t.taken.filter fun e => e.1 != tick }

/-- The instructions in order of their ticks. -/
def labels (t : TickLine) : List Label :=
  (Sort.sortBy (fun a b : Int × Label => decide (a.1 ≤ b.1)) t.taken).map Prod.snd

/-! ## Blocks -/

def placeMember (name : String) (t : TickLine) (b : Board) (l : Label) : Except Fault TickLine :=
  let tick := b.time l
  if !t.inRange tick then
    .error ⟨.sequenceTooShort, some name, s!"Block '{name}' does not fit before the end of the sequence"⟩
  else if (t.at? tick).isSome then
    let text := wholeText tick
    .error ⟨.internal, some name, s!"Block '{name}' has two instructions at tick {text}"⟩
  else .ok (t.put tick l)

def placeBlocks (t : TickLine) (b : Board) : Except Fault TickLine :=
  t.blocks.foldlM (fun t x => x.members.foldlM (fun t l => placeMember x.name t b l) t) t

/-! ## Free-standing instructions -/

/-- Of two instructions that meet, the one with the higher rank stays. -/
def rank (i : Instruction) : Int :=
  match i.action with
  | .wait _ => -1
  | .set _ => 0
  | .jump .. => 1
  | .stop => 2

/-- An instruction on its way: where it stands, which way it goes, and whether it has just left a block. -/
structure Traveller where
  label : Label
  tick : Int
  /-- The way it goes: `-1` for earlier, `1` for later. -/
  direction : Int
  leaving : Bool

/-- The instruction on its way does not take the tick, but looks further. -/
def yields (b : Board) (v : Traveller) (occupant : Label) : Bool :=
  !v.leaving &&
    (if v.direction < 0 then decide (rank (b.get v.label) < rank (b.get occupant))
      else decide (rank (b.get occupant) < rank (b.get v.label)))

/-- Leaves a block on the side of its anchor. -/
def leave (v : Traveller) (x : Block) : Traveller :=
  if x.anchor ≤ v.tick then { v with tick := x.finish + 1, direction := 1, leaving := true }
  else { v with tick := x.start - 1, direction := -1, leaving := true }

def noRoom (b : Board) (origin : Label) (v : Traveller) : Fault :=
  ⟨.notEnoughRoom, none,
    "No free tick for an instruction at tick " ++ wholeText (b.time origin) ++ ": ran past tick " ++
      wholeText (v.tick - v.direction)⟩

/-- Moves on until a free tick is found, for at most so many steps. -/
def settle (origin : Label) : (steps : Nat) → Traveller → TickLine → Board → Attempt (TickLine × Board)
  | 0, v, _, _ => .fail ⟨.internal, none, "Placement around tick " ++ wholeText v.tick ++ " does not settle"⟩
  | steps + 1, v, t, b =>
    if !t.inRange v.tick then .fail (noRoom b origin v)
    else
      match t.blockAt? v.tick with
      | some x =>
        let here := wholeText v.tick
        if v.leaving then
          .fail ⟨.notEnoughRoom, some x.name, s!"Not enough room next to block '{x.name}' at tick {here}"⟩
        else do
          let moved := leave v x
          let there := wholeText moved.tick
          .warn s!"Moving instruction at tick {here} out of block '{x.name}' to tick {there}" (some x.name)
          settle origin steps moved t b
      | none =>
        match t.at? v.tick with
        | none => pure (t.put v.tick v.label, b.setTime v.label v.tick)
        | some occupant =>
          let next := v.tick + v.direction
          if yields b v occupant then settle origin steps { v with tick := next } t b
          else
            settle origin steps { v with label := occupant, tick := next } (t.put v.tick v.label)
              (b.setTime v.label v.tick)

/-- The steps after which placement gives up. -/
def stepLimit (t : TickLine) : Nat := t.length.toNat * 4 + 17

def placeFree (acc : TickLine × Board) (l : Label) : Attempt (TickLine × Board) :=
  settle l acc.1.stepLimit ⟨l, acc.2.time l, -1, false⟩ acc.1 acc.2

end TickLine

/-- Places every instruction on a tick of its own in `[0, length)`, and gives them in order of their ticks. -/
def Board.place [Collation] (b : Board) (length : Int) (labels : List Label) : Attempt (List Label × Board) := do
  let (blocks, b) ← Block.separate b (Block.collect b labels)
  if length < 0 ∨ TickLine.maxLength < length then ⟨[], .error .endlessLine⟩
  else do
    let t ← Attempt.ofExcept (TickLine.placeBlocks ⟨length, blocks, []⟩ b)
    let free := labels.filter fun l => (b.get l).block.isNone
    let (t, b) ← (Sort.sortBy (fun x y => (b.get y).before (b.get x)) free).foldlM TickLine.placeFree (t, b)
    return (t.labels, b)

/-- Places the instructions of a draft. -/
def Draft.place [Collation] (d : Draft) (length : Int) : Attempt Draft := do
  let (labels, board) ← d.board.place length d.list
  return { d with board }.supersede labels

end PulseSequencer
