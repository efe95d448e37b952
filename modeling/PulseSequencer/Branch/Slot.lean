import PulseSequencer.Branch.Condition
import PulseSequencer.Time.Tick

/-!
# Ticks of jumps

Every jump takes a tick of its own. Where two meet, the one that is later in time keeps the tick and the earlier one
moves back until it finds a free tick.

* `Slot` : a jump with the counter channel it tests, its time and its tick;
* `Slot.assign` : slots with ticks of their own.
-/

namespace PulseSequencer

structure Slot where
  jump : Jump
  /-- The counter channel the jump tests. -/
  channel : Binary64
  /-- The exact time in µs. -/
  time : Binary64
  tick : Int
deriving DecidableEq, Inhabited

namespace Slot

/-- Of two slots that meet at a tick, the one that keeps it and the one that moves on. -/
def ranked (moving other : Slot) : Slot × Slot := if moving.time < other.time then (other, moving) else (moving, other)

/-- Puts a slot under a tick that is taken. -/
def put (placed : List (Int × Slot)) (tick : Int) (keep : Slot) : List (Int × Slot) :=
  placed.map fun e => if e.1 == tick then (tick, { keep with tick }) else e

/-- Puts a slot on a tick, or on the first free one before it. The slots that have found theirs stand under it. -/
def settle (tick : Int) (moving : Slot) (placed : List (Int × Slot)) : Attempt (List (Int × Slot)) :=
  if tick < 0 then
    .fail ⟨.notEnoughRoom, some moving.jump.name, s!"No free tick before jump '{moving.jump.name}'"⟩
  else
    match placed.find? fun e => e.1 == tick with
    | none => pure (placed ++ [(tick, { moving with tick })])
    | some (_, other) =>
      if other.time.equal moving.time then
        .fail ⟨.internal, some moving.jump.name,
          s!"Jumps '{other.jump.name}' and '{moving.jump.name}' happen at the same time"⟩
      else do
        let (keep, shift) := ranked moving other
        .warn (s!"Shifting jump '{shift.jump.name}' to tick {wholeText (Tick.back tick)} so that it happens before " ++
          s!"'{keep.jump.name}'") (some shift.jump.name)
        if Tick.back tick < tick then settle (Tick.back tick) shift (put placed tick keep)
        else ⟨[], .error .endlessSearch⟩
termination_by (tick + 1).toNat

/-- Gives every slot a tick of its own, under which it then stands. -/
def assign (slots : List Slot) : Attempt (List (Int × Slot)) :=
  slots.foldlM (fun placed s => settle s.tick s placed) []

end Slot

end PulseSequencer
