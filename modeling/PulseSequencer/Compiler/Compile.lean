import PulseSequencer.Compiler.Branching
import PulseSequencer.Report
import PulseSequencer.Schedule.TickLine

/-!
# Compilation of sequences

A verified sequence becomes a draft of SETs and JUMPs, is placed on its ticks and encoded.

* `Sequence.ticks` : the length of a variant in ticks;
* `Draft.complete` : running state, placement and gap filling;
* `Sequence.compile` : the words of one variant; `Sequence.compileAll` : of all variants.
-/

namespace PulseSequencer

/-- The draft of a program becomes final: every SET carries the full state and every tick is covered. -/
def Draft.complete [Collation] (d : Draft) (controlMask outputMask length : Int) : Attempt Draft := do
  let d ← d.mergeSets controlMask
  let d ← Attempt.ofExcept (d.inheritOutputs outputMask)
  let d ← d.mergeSets controlMask
  let d ← d.place length
  let d ← Attempt.ofExcept (d.inheritOutputs outputMask)
  let d ← Attempt.ofExcept d.fillGaps
  let d := d.sort
  let count := d.list.length
  let d ← d.mergeSets controlMask
  if d.list.length ≠ count then
    let changed := d.list.length
    Attempt.fail ⟨.internal, none,
      s!"Final compression changed the instruction count from {count} to {changed}"⟩
  else return d

/-- The result of a compilation. -/
structure Compiled where
  words : List Word
  report : Report
  listing : String

namespace Sequence

/-- The length of a variant in ticks. A truncated one ends two ticks after its latest event. -/
def ticks (t : Timeline) (o : Options) : Attempt Int := do
  let unit := t.sequence.hardware.delayUnit
  let full := Tick.ofTime unit t.sequence.length
  if !o.truncate then return full
  else
    let latest ← Attempt.ofExcept t.latest
    if latest ≤ 0 then
      Attempt.warn "Nothing to truncate to, keeping the full sequence length" (some t.sequence.name)
      return full
    else return min full (Tick.ofTime unit latest + 2)

/-- Marks the start of a sequence with jumps, and adds the END. -/
def begin (f : Frame) (b : Build) : Attempt Build := do
  let b ←
    if f.sequence.hasJumps then do
      let (_, b) ← Attempt.ofExcept (b.writeId f 0 (some Block.startName))
      pure b
    else do
      Attempt.warn "No jumps in sequence, not using the control register" (some f.sequence.name)
      pure b
  return { b with draft := b.draft.append [f.final] }

/-- The instructions of a variant before they are placed. -/
def draft (t : Timeline) (o : Options) (length : Int) : Attempt (Frame × Draft) := do
  let (final, board) := Board.empty.addEnd (length - 1) (some Block.endName)
  let f : Frame := { timeline := t, options := o, length, pulses := [], final }
  let b ← begin f ⟨⟨board, [], []⟩, 1⟩
  let pulses ← t.sequence.channels.mapM (Pulse.ofChannel t f.terminator)
  let f := { f with pulses := pulses.flatten }
  let drawn ← Attempt.ofExcept (f.pulses.foldlM Pulse.draw b.draft)
  let merged ← drawn.mergeSets f.register.mask
  let b ← Build.emitAll f { b with draft := merged }
  let merged ← b.draft.mergeSets f.register.mask
  let sorted := merged.sort
  let (l, board) ← Attempt.ofExcept
    (sorted.board.addSet 0 (Pulse.stateAt f.pulses 0) f.register.complement none false)
  return (f, { sorted with board }.append [l])

/-- Compiles one variant of a sequence that has been verified. -/
def assemble [Collation] (s : Sequence) (variant : Binary64) (o : Options) : Attempt Compiled := do
  if !variant.isWhole || decide (variant < 0) || decide (s.variants ≤ variant) then
    let last := s.variants - 1
    Attempt.fail (invalid s.name s!"Variant {variant} outside 0..{last}")
  else
    let t ← Attempt.ofExcept (Timeline.ofVariant s variant)
    let length ← ticks t o
    if length < 2 then
      let text := wholeText length
      Attempt.fail ⟨.sequenceTooShort, some s.name, s!"Sequence '{s.name}' is only {text} ticks long"⟩
    else
      let (f, d) ← draft t o length
      let d ← d.complete f.register.mask f.register.complement length
      let d := d.applyPolarity s.hardware.polarityMask
      let d ← Attempt.ofExcept d.assignAddresses
      let words ← Attempt.ofExcept d.encode
      return {
        words
        report := {
          options := o, values := t.values, variant, delayUnit := s.hardware.delayUnit, length := .ofInt length,
          hasJumps := s.hasJumps, words }
        listing := d.text }

/-- Compiles one variant. -/
def compile [Collation] (s : Sequence) (variant : Binary64) (o : Options) : Attempt Compiled := do
  s.verify
  s.assemble variant o

/-- Compiles every variant, each on its own. -/
def compileAll [Collation] (s : Sequence) (o : Options) : List (Attempt Compiled) :=
  (List.range s.variants.countBelow).map fun variant => s.compile (.ofNat variant) o

end Sequence

end PulseSequencer
