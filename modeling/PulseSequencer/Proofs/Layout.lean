import PulseSequencer.Compiler.Compile
import PulseSequencer.Proofs.Rows

/-!
# The stages of a compilation

* `Opening`, `Sketch`, `Score`, `Layout` : the drafts of a compilation up to the pulses, up to the jumps, up to the list
  that is placed, and all of them;
* `Layout.exists_of_compile` : a compilation that succeeds has such stages, and its words encode the last one;
* `Layout.outcome_compile` : the other way round;
* `Layout.ofSequence?` : the stages, computed;
* `Bench.gated` : a sequence with a branch that can be compiled.
-/

namespace PulseSequencer

/-- The frame of a variant. -/
def Frame.ofPulses (t : Timeline) (o : Options) (length : Int) (pulses : List Pulse) : Frame :=
  { timeline := t, options := o, length, pulses, final := 0 }

/-- The build with nothing but the END on its board. -/
def Build.blank (length : Int) : Build := ⟨⟨(Board.empty.addEnd (length - 1) (some Block.endName)).2, [], []⟩, 1⟩

/-- The SET of tick 0 that carries the whole state. -/
def Frame.starting (f : Frame) : Instruction :=
  ⟨0, none, none, [], .set ⟨Pulse.stateAt f.pulses 0, f.register.complement, 0, false⟩⟩

/-- A compilation up to the pulses. -/
structure Opening (s : Sequence) (variant : Binary64) (o : Options) where
  timeline : Timeline
  length : Int
  pulses : List (List Pulse)
  /-- The draft with the control write of the start and the END. -/
  begun : Build
  verified : s.verify.outcome = .ok ()
  variant_ok : (!variant.isWhole || decide (variant < 0) || decide (s.variants ≤ variant)) = false
  timeline_eq : Timeline.ofVariant s variant = .ok timeline
  length_eq : (Sequence.ticks timeline o).outcome = .ok length
  two_le : ¬ length < 2
  begun_eq : (Sequence.begin (.ofPulses timeline o length []) (.blank length)).outcome = .ok begun
  pulses_eq : (timeline.sequence.channels.mapM (Pulse.ofChannel timeline (length - 1))).outcome = .ok pulses

/-- The frame of the variant. -/
def Opening.frame {s : Sequence} {variant : Binary64} {o : Options} (k : Opening s variant o) : Frame :=
  .ofPulses k.timeline o k.length k.pulses.flatten

/-- A compilation up to the jumps. -/
structure Sketch (s : Sequence) (variant : Binary64) (o : Options) extends Opening s variant o where
  /-- The pulses, merged. -/
  outlined : Draft
  slots : List Slot
  /-- With the jumps. -/
  emitted : Build
  outlined_eq : ((begun.draft.draw pulses.flatten).mergeSets toOpening.frame.register.mask).outcome = .ok outlined
  slots_eq : (Build.slotsOf toOpening.frame).outcome = .ok slots
  emitted_eq : ((Sort.sortBy (fun a b : Slot => decide (a.tick ≤ b.tick)) slots).foldlM
    (fun b s => Build.emit toOpening.frame slots s b) { begun with draft := outlined }).outcome = .ok emitted

/-- A compilation up to the list that is placed. -/
structure Score (s : Sequence) (variant : Binary64) (o : Options) extends Sketch s variant o where
  joined : Draft
  /-- With the SET of tick 0, merged. -/
  merged : Draft
  /-- Every SET carries the full state. -/
  carried : Draft
  /-- The list that is placed. -/
  ledger : Draft
  joined_eq : (emitted.draft.mergeSets toOpening.frame.register.mask).outcome = .ok joined
  starting_inside : Bits.without (Pulse.stateAt pulses.flatten 0) toOpening.frame.register.complement = 0
  merged_eq : ((joined.sort.push toOpening.frame.starting).mergeSets toOpening.frame.register.mask).outcome = .ok merged
  carried_eq : merged.inheritOutputs toOpening.frame.register.complement = .ok carried
  ledger_eq : (carried.mergeSets toOpening.frame.register.mask).outcome = .ok ledger

/-- The stages of a compilation up to the addressed list. -/
structure Layout [Collation] (s : Sequence) (variant : Binary64) (o : Options) extends Score s variant o where
  placed : Draft
  settled : Draft
  filled : Draft
  final : Draft
  addressed : Draft
  placed_eq : (ledger.place length).outcome = .ok placed
  settled_eq : placed.inheritOutputs toOpening.frame.register.complement = .ok settled
  filled_eq : settled.fillGaps = .ok filled
  final_eq : (filled.sort.mergeSets toOpening.frame.register.mask).outcome = .ok final
  final_length : final.list.length = filled.sort.list.length
  addressed_eq : (final.applyPolarity s.hardware.polarityMask).assignAddresses = .ok addressed

variable {s : Sequence} {variant : Binary64} {o : Options}

namespace Opening

theorem sequence_eq (k : Opening s variant o) : k.timeline.sequence = s := by
  obtain ⟨values, -, h⟩ := Except.bind_eq_ok.1 k.timeline_eq
  rw [← Except.pure_eq_ok.1 h]

theorem register_eq (k : Opening s variant o) : k.frame.register = s.hardware.register := by
  rw [Frame.register, Frame.sequence, show k.frame.timeline = k.timeline from rfl, k.sequence_eq]

end Opening

/-- The draft with the SET of tick 0. -/
def Score.started (k : Score s variant o) : Draft := k.joined.sort.push k.frame.starting

theorem Score.outcome_draft (k : Score s variant o) :
    (Sequence.draft k.timeline o k.length).outcome = .ok (k.frame, k.started) := by
  have hstart : k.joined.sort.board.addSet 0 (Pulse.stateAt k.pulses.flatten 0) k.frame.register.complement none false =
      .ok (k.joined.sort.board.add k.frame.starting) := Board.addSet_eq_ok.2 ⟨k.starting_inside, rfl⟩
  refine Attempt.bind_eq_ok.2 ⟨k.begun, k.begun_eq, ?_⟩
  refine Attempt.bind_eq_ok.2 ⟨k.pulses, k.pulses_eq, ?_⟩
  refine Attempt.bind_eq_ok.2 ⟨_, Attempt.ofExcept_eq_ok.2 (Pulse.foldlM_draw _ _), ?_⟩
  refine Attempt.bind_eq_ok.2 ⟨k.outlined, k.outlined_eq, ?_⟩
  refine Attempt.bind_eq_ok.2 ⟨k.emitted, Attempt.bind_eq_ok.2 ⟨k.slots, k.slots_eq, k.emitted_eq⟩, ?_⟩
  refine Attempt.bind_eq_ok.2 ⟨k.joined, k.joined_eq, ?_⟩
  exact Attempt.bind_eq_ok.2 ⟨_, Attempt.ofExcept_eq_ok.2 hstart, rfl⟩

namespace Layout

/-- The result, for given words. -/
def compiled [Collation] (k : Layout s variant o) (words : List Word) : Compiled where
  words
  report := {
    options := o, values := k.timeline.values, variant, delayUnit := s.hardware.delayUnit, length := .ofInt k.length,
    hasJumps := s.hasJumps, words }
  listing := k.addressed.text

/-- The stages behind a draft that has been completed and addressed. -/
theorem exists_of_stages [Collation] {t : Timeline} {length : Int} {f : Frame} {started final addressed : Draft}
    (hverify : s.verify.outcome = .ok ())
    (hvariant : ¬ (!variant.isWhole || decide (variant < 0) || decide (s.variants ≤ variant)) = true)
    (ht : Timeline.ofVariant s variant = .ok t) (hlength : (Sequence.ticks t o).outcome = .ok length)
    (htwo : ¬ length < 2) (hdraft : (Sequence.draft t o length).outcome = .ok (f, started))
    (hcomplete : (started.complete f.register.mask f.register.complement length).outcome = .ok final)
    (haddressed : (final.applyPolarity s.hardware.polarityMask).assignAddresses = .ok addressed) :
    ∃ k : Layout s variant o, k.addressed = addressed := by
  obtain ⟨begun, hbegun, h⟩ := Attempt.bind_eq_ok.1 hdraft
  obtain ⟨pulses, hpulses, h⟩ := Attempt.bind_eq_ok.1 h
  obtain ⟨drawn, hdrawn, h⟩ := Attempt.bind_eq_ok.1 h
  obtain ⟨outlined, houtlined, h⟩ := Attempt.bind_eq_ok.1 h
  obtain ⟨emitted, hemit, h⟩ := Attempt.bind_eq_ok.1 h
  obtain ⟨joined, hjoined, h⟩ := Attempt.bind_eq_ok.1 h
  obtain ⟨⟨l, board⟩, hstart, h⟩ := Attempt.bind_eq_ok.1 h
  obtain ⟨slots, hslots, hemitted⟩ := Attempt.bind_eq_ok.1 hemit
  rw [Attempt.ofExcept_eq_ok, Pulse.foldlM_draw] at hdrawn
  cases hdrawn
  obtain ⟨hinside, hadd⟩ := Board.addSet_eq_ok.1 (Attempt.ofExcept_eq_ok.1 hstart)
  obtain ⟨rfl, rfl⟩ := Prod.mk.inj hadd
  cases h
  obtain ⟨merged, hmerged, h⟩ := Attempt.bind_eq_ok.1 hcomplete
  obtain ⟨carried, hcarried, h⟩ := Attempt.bind_eq_ok.1 h
  obtain ⟨ledger, hledger, h⟩ := Attempt.bind_eq_ok.1 h
  obtain ⟨placed, hplaced, h⟩ := Attempt.bind_eq_ok.1 h
  obtain ⟨settled, hsettled, h⟩ := Attempt.bind_eq_ok.1 h
  obtain ⟨filled, hfilled, h⟩ := Attempt.bind_eq_ok.1 h
  obtain ⟨last, hlast, h⟩ := Attempt.bind_eq_ok.1 h
  simp only at h
  split at h
  · cases h
  rename_i hcount
  cases h
  exact ⟨{
    timeline := t, length, pulses, begun, outlined, slots, emitted, joined, merged, carried, ledger, placed, settled
    filled, final, addressed
    verified := hverify, variant_ok := by simpa using hvariant, timeline_eq := ht
    length_eq := hlength, two_le := htwo, begun_eq := hbegun, pulses_eq := hpulses, outlined_eq := houtlined
    slots_eq := hslots, emitted_eq := hemitted, joined_eq := hjoined, starting_inside := hinside, merged_eq := hmerged
    carried_eq := Attempt.ofExcept_eq_ok.1 hcarried, ledger_eq := hledger, placed_eq := hplaced
    settled_eq := Attempt.ofExcept_eq_ok.1 hsettled, filled_eq := Attempt.ofExcept_eq_ok.1 hfilled, final_eq := hlast
    final_length := not_not.1 hcount, addressed_eq := haddressed }, rfl⟩

theorem exists_of_compile [Collation] {c : Compiled} (h : (s.compile variant o).outcome = .ok c) :
    ∃ k : Layout s variant o, k.addressed.encode = .ok c.words := by
  obtain ⟨⟨⟩, hverify, h⟩ := Attempt.bind_eq_ok.1 h
  unfold Sequence.assemble at h
  simp only at h
  split at h
  · cases h
  rename_i hvariant
  obtain ⟨t, ht, h⟩ := Attempt.bind_eq_ok.1 h
  obtain ⟨length, hlength, h⟩ := Attempt.bind_eq_ok.1 h
  split at h
  · cases h
  rename_i htwo
  obtain ⟨⟨f, started⟩, hdraft, h⟩ := Attempt.bind_eq_ok.1 h
  obtain ⟨final, hcomplete, h⟩ := Attempt.bind_eq_ok.1 h
  obtain ⟨addressed, haddressed, h⟩ := Attempt.bind_eq_ok.1 h
  obtain ⟨words, hwords, h⟩ := Attempt.bind_eq_ok.1 h
  cases h
  obtain ⟨k, rfl⟩ := exists_of_stages hverify hvariant (Attempt.ofExcept_eq_ok.1 ht) hlength htwo hdraft hcomplete
    (Attempt.ofExcept_eq_ok.1 haddressed)
  exact ⟨k, Attempt.ofExcept_eq_ok.1 hwords⟩

theorem outcome_complete [Collation] (k : Layout s variant o) :
    (k.started.complete k.frame.register.mask k.frame.register.complement k.length).outcome = .ok k.final := by
  refine Attempt.bind_eq_ok.2 ⟨k.merged, k.merged_eq, ?_⟩
  refine Attempt.bind_eq_ok.2 ⟨k.carried, Attempt.ofExcept_eq_ok.2 k.carried_eq, ?_⟩
  refine Attempt.bind_eq_ok.2 ⟨k.ledger, k.ledger_eq, ?_⟩
  refine Attempt.bind_eq_ok.2 ⟨k.placed, k.placed_eq, ?_⟩
  refine Attempt.bind_eq_ok.2 ⟨k.settled, Attempt.ofExcept_eq_ok.2 k.settled_eq, ?_⟩
  refine Attempt.bind_eq_ok.2 ⟨k.filled, Attempt.ofExcept_eq_ok.2 k.filled_eq, ?_⟩
  refine Attempt.bind_eq_ok.2 ⟨k.final, k.final_eq, ?_⟩
  simp only
  rw [if_neg (not_not.2 k.final_length)]
  rfl

/-- With all stages at hand, only the encoding is open. -/
theorem outcome_compile [Collation] (k : Layout s variant o) :
    (s.compile variant o).outcome = (Attempt.ofExcept k.addressed.encode).outcome.map k.compiled := by
  have hassemble : (s.compile variant o).outcome = (s.assemble variant o).outcome :=
    Attempt.outcome_bind_of_ok k.verified
  rw [hassemble, Sequence.assemble, if_neg (by rw [k.variant_ok]; exact Bool.false_ne_true),
    Attempt.outcome_bind_of_ok (Attempt.outcome_ofExcept_ok k.timeline_eq), Attempt.outcome_bind_of_ok k.length_eq,
    if_neg k.two_le, Attempt.outcome_bind_of_ok k.outcome_draft]
  simp only
  rw [Attempt.outcome_bind_of_ok k.outcome_complete,
    Attempt.outcome_bind_of_ok (Attempt.outcome_ofExcept_ok k.addressed_eq), Attempt.outcome_bind]
  cases (Attempt.ofExcept k.addressed.encode).outcome <;> rfl

/-- A result, together with where it comes from. -/
def attach? {ε α : Type} : (x : Except ε α) → Option { a // x = .ok a }
  | .ok a => some ⟨a, rfl⟩
  | .error _ => none

/-- The stages of a compilation. -/
def ofSequence? [Collation] (s : Sequence) (variant : Binary64) (o : Options) : Option (Layout s variant o) := do
  let ⟨(), verified⟩ ← attach? s.verify.outcome
  let ⟨timeline, timeline_eq⟩ ← attach? (Timeline.ofVariant s variant)
  let ⟨length, length_eq⟩ ← attach? (Sequence.ticks timeline o).outcome
  if h : (!variant.isWhole || decide (variant < 0) || decide (s.variants ≤ variant)) = false ∧ ¬ length < 2 then
    let ⟨begun, begun_eq⟩ ← attach? (Sequence.begin (.ofPulses timeline o length []) (.blank length)).outcome
    let ⟨pulses, pulses_eq⟩ ← attach? (timeline.sequence.channels.mapM (Pulse.ofChannel timeline (length - 1))).outcome
    let k : Opening s variant o := {
      timeline, length, pulses, begun, verified, variant_ok := h.1, timeline_eq, length_eq, two_le := h.2, begun_eq
      pulses_eq }
    let ⟨outlined, outlined_eq⟩ ← attach? ((begun.draft.draw pulses.flatten).mergeSets k.frame.register.mask).outcome
    let ⟨slots, slots_eq⟩ ← attach? (Build.slotsOf k.frame).outcome
    let ⟨emitted, emitted_eq⟩ ← attach? ((Sort.sortBy (fun a b : Slot => decide (a.tick ≤ b.tick)) slots).foldlM
      (fun b s => Build.emit k.frame slots s b) { begun with draft := outlined }).outcome
    let ⟨joined, joined_eq⟩ ← attach? (emitted.draft.mergeSets k.frame.register.mask).outcome
    if starting_inside : Bits.without (Pulse.stateAt pulses.flatten 0) k.frame.register.complement = 0 then
      let ⟨merged, merged_eq⟩ ← attach? ((joined.sort.push k.frame.starting).mergeSets k.frame.register.mask).outcome
      let ⟨carried, carried_eq⟩ ← attach? (merged.inheritOutputs k.frame.register.complement)
      let ⟨ledger, ledger_eq⟩ ← attach? (carried.mergeSets k.frame.register.mask).outcome
      let ⟨placed, placed_eq⟩ ← attach? (ledger.place length).outcome
      let ⟨settled, settled_eq⟩ ← attach? (placed.inheritOutputs k.frame.register.complement)
      let ⟨filled, filled_eq⟩ ← attach? settled.fillGaps
      let ⟨final, final_eq⟩ ← attach? (filled.sort.mergeSets k.frame.register.mask).outcome
      let ⟨addressed, addressed_eq⟩ ← attach? (final.applyPolarity s.hardware.polarityMask).assignAddresses
      if final_length : final.list.length = filled.sort.list.length then
        return { k with
          outlined, slots, emitted, outlined_eq, slots_eq, emitted_eq, joined, merged, carried, ledger, joined_eq
          starting_inside, merged_eq, carried_eq, ledger_eq, placed, settled, filled, final, addressed, placed_eq
          settled_eq, filled_eq, final_eq, final_length, addressed_eq }
      else none
    else none
  else none

end Layout

/-! ## A bench -/

namespace Bench

/-- Two output lines, one of them active low, and a counter. -/
def hardware : Hardware where
  name := "bench"
  delayUnit := 1
  outputs := [⟨"laser", 0, true, false⟩, ⟨"shutter", 3, false, true⟩]
  inputs := []
  counters := [⟨"detector", 2, 1⟩]
  register := [⟨0, 8, 0⟩, ⟨1, 9, 1⟩]

/-- A branch that ends the sequence, goes to its second pulse or passes. -/
def choose : Jump where
  name := "choose"
  time := .absolute 9
  action := .branch "gate" [.atLeast 5 .terminate, .between 3 5 (.destination (.start "late")), .otherwise .pass]

def detector : Channel := ⟨"detector", [⟨"gate", .absolute 3, .absolute 5⟩], .control [choose]⟩

def gated : Sequence where
  name := "gated"
  length := 40
  shots := 1
  variants := 1
  hardware
  controls := []
  channels := [
    ⟨"laser", [⟨"early", .absolute 14, .absolute 20⟩, ⟨"late", .absolute 26, .absolute 30⟩], .output⟩,
    ⟨"shutter", [⟨"open", .absolute 16, .absolute 28⟩], .output⟩, detector]

def quick : Options := { truncate := false, highTime := 2, maxConditions := 10 }

theorem exists_compile_gated : ∃ c, (gated.compile 0 quick).outcome = .ok c :=
  Except.exists_of_isOk (by decide +kernel)

end Bench

end PulseSequencer
