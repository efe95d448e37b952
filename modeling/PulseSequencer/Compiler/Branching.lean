import PulseSequencer.Branch.Ladder
import PulseSequencer.Branch.Slot
import PulseSequencer.Compiler.Frame

/-!
# JUMP instructions of jumps

The rungs of a jump's ladder become JUMPs in a row that ends at the tick of the jump, the lowest threshold last.

* `Build.slotsOf` : the jumps of a sequence with ticks of their own;
* `Build.targetOf` : the instruction a target stands for;
* `Build.emit` : the JUMPs of one jump.
-/

namespace PulseSequencer.Build

/-- A jump with its quantized time, which must be before the end. -/
def slotOf (f : Frame) (j : Jump) (c : Channel) : Except Fault Slot := do
  let time ← f.timeline.jumpTime j.name
  let tick := f.tickOf time
  if f.terminator ≤ tick then
    let text := wholeText tick
    throw ⟨.sequenceTooShort, some j.name,
      s!"Jump '{j.name}' at tick {text} is not before the end of the sequence"⟩
  else return { jump := j, channel := (← Sequence.pulseCounter f.sequence.hardware c.name).channel, time, tick }

def slotsOf (f : Frame) : Attempt (List Slot) := do
  let slots ← Attempt.ofExcept (f.sequence.jumps.mapM fun (j, c) => slotOf f j c)
  return (← Slot.assign slots).map Prod.snd

/-- The tick of a destination; one at the end or later moves before it. -/
def destinationTick (f : Frame) (slots : List Slot) (jump : String) (r : Reference) : Attempt Int := do
  let tick ← match r with
    | .jump name =>
      match slots.find? fun s => s.jump.name == name with
      | some s => pure s.tick
      | none => do pure (f.tickOf (← Attempt.ofExcept (f.timeline.jumpTime name)))
    | r => do pure (f.tickOf (← Attempt.ofExcept (f.timeline.timeOf r jump)))
  if f.terminator ≤ tick then
    let last := f.terminator - 1
    let origin := wholeText tick
    let moved := wholeText last
    Attempt.warn s!"Destination of jump '{jump}' moved from tick {origin} to {moved}" (some jump)
    return last
  else return tick

def targetOf (f : Frame) (slots : List Slot) (jump : String) (t : Target) (b : Build) : Attempt (Label × Build) :=
  match t with
  | .terminate => pure (f.final, b)
  | .destination r => do
    let tick ← destinationTick f slots jump r
    Attempt.ofExcept (b.land f tick)
  | .pass => .fail ⟨.internal, some jump, s!"Pass of jump '{jump}' has no instruction"⟩

/-- Adds a JUMP to the draft. -/
def addJump (b : Build) (time : Int) (target : Label) (always : Bool) (channel threshold : Binary64)
    (block : Option String) : Build :=
  let (l, board) := b.draft.board.addJump time target always channel threshold block
  { b with draft := { b.draft with board }.append [l] }

/-- The JUMPs of rungs with ascending thresholds, from the tick of the jump backwards. `marker` is where a pass goes,
`total` the number of rungs. -/
def emitRungs (f : Frame) (slots : List Slot) (s : Slot) (marker : Option Label) (total : Nat) (tick : Int) :
    Ladder → Build → Attempt Build
  | [], b => pure b
  | r :: rest, b =>
    if tick < 0 then
      .fail ⟨.notEnoughRoom, some s.jump.name,
        s!"Jump '{s.jump.name}' has no room for its {total} conditions"⟩
    else do
      let (target, b) ← match r.target with
        | .pass =>
          match marker with
          | some l => pure (l, b)
          | none =>
            Attempt.fail ⟨.internal, some s.jump.name, s!"Jump '{s.jump.name}' lost its pass marker"⟩
        | t => targetOf f slots s.jump.name t b
      let b := b.addJump tick target (r.threshold.equal 0) s.channel r.threshold (some s.jump.name)
      emitRungs f slots s marker total (tick - 1) rest b

/-- The rungs that need a JUMP, lowest first: a pass on all counts that are left needs none. -/
def jumpRungs (l : Ladder) : Ladder :=
  match l.reverse with
  | r :: rest => if r.threshold.equal 0 && r.target == .pass then rest else r :: rest
  | [] => []

def emit (f : Frame) (slots : List Slot) (s : Slot) (b : Build) : Attempt Build := do
  let name := s.jump.name
  let ladder ← Attempt.ofExcept s.jump.mergedLadder
  if f.options.maxConditions < .ofNat ladder.length then
    let count := ladder.length
    let text := ladder.text
    Attempt.fail ⟨.tooManyConditions, some name,
      s!"Jump '{name}' needs {count} conditions, at most {f.options.maxConditions} are supported ({text})"⟩
  else
    match ladder with
    | [r] =>
      if r.target = .pass then
        Attempt.warn s!"Jump '{name}' always passes and is skipped" (some name)
        return b
      else
        let (target, b) ← targetOf f slots name r.target b
        return b.addJump s.tick target true s.channel 0 none
    | ladder => do
      let (marker, b) ←
        if ladder.any fun r => r.target == .pass then do
          let (l, b) ← Attempt.ofExcept (b.writeId f (s.tick + 1) (some name))
          pure (some l, b)
        else pure (none, b)
      let rungs := jumpRungs ladder
      emitRungs f slots s marker rungs.length s.tick rungs b

/-- All jumps, in order of their ticks. -/
def emitAll (f : Frame) (b : Build) : Attempt Build := do
  let slots ← slotsOf f
  let ordered := Sort.sortBy (fun a b : Slot => decide (a.tick ≤ b.tick)) slots
  ordered.foldlM (fun b s => emit f slots s b) b

end PulseSequencer.Build
