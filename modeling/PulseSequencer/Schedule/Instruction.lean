import PulseSequencer.Bits
import PulseSequencer.Code.Word
import PulseSequencer.Fault

/-!
# Scheduled instructions

An instruction stands at a tick, may belong to a block, and gets an address once the program is final. Instructions are
kept on a board under labels; a jump names its target by label, and the target lists the jumps that reach it.

* `Instruction`, `Board` : instructions and where they are kept;
* `Board.addSet`, `Board.addJump`, `Board.addWait`, `Board.addEnd` : new instructions;
* `Board.unite` : several SETs of one tick as one;
* `Board.inherit` : the open bits of a SET, taken from the one before it;
* `Board.encode` : the word of an instruction.
-/

namespace PulseSequencer

abbrev Label := Nat

/-- What a SET drives: the bits of `value` inside `mask`. -/
structure Drive where
  value : Int
  mask : Int
  /-- Bits inverted on the wire. -/
  polarity : Int
  /-- Whether this writes or resets the control register. -/
  marker : Bool
deriving DecidableEq, Inhabited

inductive Action where
  | wait (duration : Binary64)
  | jump (always : Bool) (channel threshold : Binary64) (target : Label)
  | set (drive : Drive)
  | stop
deriving DecidableEq, Inhabited

structure Instruction where
  time : Int
  block : Option String
  address : Option Int
  /-- The jumps that target this instruction. -/
  reachedBy : List Label
  action : Action
deriving DecidableEq, Inhabited

namespace Action

def opcode : Action → Nat
  | wait _ => 0
  | jump .. => 1
  | set _ => 2
  | stop => 3

def name : Action → String
  | wait _ => "WAIT"
  | jump .. => "JUMP"
  | set _ => "SET"
  | stop => "END"

end Action

namespace Instruction

def opcode (i : Instruction) : Nat := i.action.opcode

def isSet (i : Instruction) : Bool :=
  match i.action with
  | .set _ => true
  | _ => false

/-- What the instruction drives; nothing unless it is a SET. -/
def drive (i : Instruction) : Drive :=
  match i.action with
  | .set d => d
  | _ => ⟨0, 0, 0, false⟩

def withDrive (i : Instruction) (d : Drive) : Instruction := { i with action := .set d }

/-- Earlier ticks first, then the lower opcode. -/
def before (a b : Instruction) : Bool := a.time < b.time || (a.time == b.time && a.opcode ≤ b.opcode)

end Instruction

/-! ## The board -/

structure Board where
  cells : Array Instruction
deriving Inhabited

namespace Board

def empty : Board := ⟨#[]⟩

def get (b : Board) (l : Label) : Instruction := b.cells.getD l default

def add (b : Board) (i : Instruction) : Label × Board := (b.cells.size, ⟨b.cells.push i⟩)

def modify (b : Board) (l : Label) (f : Instruction → Instruction) : Board := ⟨b.cells.modify l f⟩

def time (b : Board) (l : Label) : Int := (b.get l).time

def setTime (b : Board) (l : Label) (time : Int) : Board := b.modify l fun i => { i with time }

def addWait (b : Board) (time : Int) (duration : Binary64) (block : Option String) : Label × Board :=
  b.add ⟨time, block, none, [], .wait duration⟩

def addEnd (b : Board) (time : Int) (block : Option String) : Label × Board :=
  b.add ⟨time, block, none, [], .stop⟩

/-- A SET must not drive bits outside its mask. -/
def addSet (b : Board) (time value mask : Int) (block : Option String) (marker : Bool) :
    Except Fault (Label × Board) :=
  if Bits.without value mask = 0 then .ok (b.add ⟨time, block, none, [], .set ⟨value, mask, 0, marker⟩⟩)
  else
    .error ⟨.internal, none,
      "SET at tick " ++ wholeText time ++ " has value " ++ Bits.hex value Bits.busDigits ++ " outside its mask " ++
        Bits.hex mask Bits.busDigits⟩

/-- An unconditional jump has channel 0 and threshold 0. The target learns of the jump. -/
def addJump (b : Board) (time : Int) (target : Label) (always : Bool) (channel threshold : Binary64)
    (block : Option String) : Label × Board :=
  let action : Action := .jump always (if always then 0 else channel) (if always then 0 else threshold) target
  let (label, b) := b.add ⟨time, block, none, [], action⟩
  (label, b.modify target fun i => { i with reachedBy := i.reachedBy ++ [label] })

/-- Sends a jump to another target. -/
def redirect (target : Label) (i : Instruction) : Instruction :=
  match i.action with
  | .jump always channel threshold _ => { i with action := .jump always channel threshold target }
  | _ => i

/-! ## Uniting SETs -/

/-- The block of SETs that stand at one tick: all at `time`, and at most one of them in a block. -/
def commonBlock (b : Board) (time : Int) : (block : Option String) → List Label → Except Fault (Option String)
  | block, [] => .ok block
  | block, l :: rest =>
    let i := b.get l
    let tick := wholeText time
    if i.time ≠ time then
      .error ⟨.internal, none, "Cannot combine SETs at ticks " ++ tick ++ " and " ++ wholeText i.time⟩
    else
      match i.block with
      | none => commonBlock b time block rest
      | some name =>
        match block with
        | none => commonBlock b time (some name) rest
        | some other =>
          if other = name then .error ⟨.internal, some other, s!"Two SETs of block '{other}' at tick {tick}"⟩
          else .error ⟨.internal, some name, s!"SETs of blocks '{other}' and '{name}' at tick {tick}"⟩

/-- Adds the drives of further SETs to that of the ones before: bits that are driven already keep their value. Only
control bits may disagree. -/
def unionDrive (time controlMask : Int) (d : Drive) : List Drive → Attempt Drive
  | [] => pure d
  | e :: rest => do
    let conflict := Bits.and (Bits.and (Bits.xor d.value e.value) d.mask) e.mask
    if Bits.without conflict controlMask ≠ 0 then
      Attempt.fail ⟨.internal, none,
        "Conflicting SET values on bits " ++ Bits.hex conflict Bits.busDigits ++ " at tick " ++ wholeText time⟩
    else do
      if conflict ≠ 0 then
        Attempt.warn ("Control register writes collide at tick " ++ wholeText time ++ ", keeping " ++
          Bits.hex (Bits.and d.value controlMask) Bits.busDigits) none
      unionDrive time controlMask
        { value := Bits.or d.value (Bits.without e.value d.mask), mask := Bits.or d.mask e.mask,
          polarity := Bits.or d.polarity e.polarity, marker := d.marker || e.marker } rest

/-- One SET for several of one tick. Jumps to any of them go to it. -/
def unite (b : Board) (controlMask : Int) (sets : List Label) : Attempt (Label × Board) :=
  match sets with
  | [] => .fail ⟨.internal, none, "No SETs to combine"⟩
  | first :: _ => do
    let time := b.time first
    let block ← Attempt.ofExcept (b.commonBlock time none sets)
    let d ← unionDrive time controlMask ⟨0, 0, 0, false⟩ (sets.map fun l => (b.get l).drive)
    let reachedBy := sets.flatMap fun l => (b.get l).reachedBy
    let (label, b) ← Attempt.ofExcept (b.addSet time d.value d.mask block d.marker)
    let b := b.modify label fun i => { i.withDrive { i.drive with polarity := d.polarity } with reachedBy }
    return (label, reachedBy.foldl (fun b l => b.modify l (redirect label)) b)

/-! ## Inheritance -/

/-- Takes the bits of `mask` that a drive leaves open from an earlier one. -/
def inheritDrive (d previous : Drive) (mask : Int) : Drive :=
  let bits := Bits.and (Bits.without mask d.mask) previous.mask
  { d with value := Bits.or d.value (Bits.and previous.value bits), mask := Bits.or d.mask bits }

def inherit (b : Board) (l previous : Label) (mask : Int) : Board :=
  b.modify l fun i => i.withDrive (inheritDrive i.drive (b.get previous).drive mask)

/-! ## Encoding -/

def overflow (i : Instruction) (field value : String) : Fault :=
  ⟨.fieldOverflow, none,
    i.action.name ++ " at tick " ++ wholeText i.time ++ ": " ++ field ++ " " ++ value ++ " does not fit"⟩

/-- The bus value of a SET on the wire. -/
def physical (d : Drive) : Nat := Bits.unsigned (Bits.xor d.value d.polarity)

/-- The operation of an instruction, if its fields fit and its jump is linked. -/
def operation (b : Board) (l : Label) : Except Fault Operation :=
  let i := b.get l
  match i.action with
  | .wait duration =>
    if duration.isWhole && decide (1 ≤ duration) && decide (duration < .ofNat Word.durationLimit) then
      .ok (.wait duration.toWhole.toNat)
    else .error (overflow i "duration" duration.text)
  | .set d =>
    if physical d < Word.busLimit then .ok (.set (physical d))
    else .error (overflow i "value" (Decimal.digitText (physical d)))
  | .jump always channel threshold target =>
    let goal := b.get target
    let fault (reason : String) : Fault := ⟨.internal, none, "JUMP at tick " ++ wholeText i.time ++ reason⟩
    if !goal.reachedBy.contains l then .error (fault " is not registered with its target")
    else
      match goal.address with
      | none => .error (fault " targets an instruction without an address")
      | some address =>
        if channel < 0 ∨ .ofNat (Word.channelLimit - 1) < channel then .error (overflow i "channel" channel.text)
        else if threshold < 0 ∨ .ofNat (Word.thresholdLimit - 1) < threshold then
          .error (overflow i "threshold" threshold.text)
        else if address < 1 ∨ (Word.addressLimit - 1 : Nat) < address then
          .error (overflow i "address" (wholeText address))
        else .ok (.jump always channel.toWhole.toNat threshold.toWhole.toNat address.toNat)
  | .stop => .ok .stop

def encode (b : Board) (l : Label) : Except Fault Word := (b.operation l).map Operation.toWord

/-! ## Text -/

def text (b : Board) (l : Label) : String :=
  let i := b.get l
  let block := match i.block with
    | none => ""
    | some name => " [" ++ name ++ "]"
  let what := match i.action with
    | .wait duration => "WAIT " ++ duration.text
    | .set d => "SET " ++ Bits.hex d.value Bits.busDigits ++ "/" ++ Bits.hex d.mask Bits.busDigits
    | .jump always channel threshold target =>
      let condition := if always then "always" else "spc" ++ channel.text ++ " >= " ++ threshold.text
      "JUMP " ++ condition ++ " → @" ++ wholeText (b.time target)
    | .stop => "END"
  "@" ++ wholeText i.time ++ " " ++ what ++ block

end Board

end PulseSequencer
