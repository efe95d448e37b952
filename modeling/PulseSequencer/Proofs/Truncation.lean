import PulseSequencer.Proofs.Latest
import PulseSequencer.Proofs.LaterEnd
import PulseSequencer.Proofs.MirroredStages

/-!
# Truncated sequences

A truncated sequence is compiled to the same instructions at the same ticks, with an earlier END.

* `Frame.mirrored_of_timeline` : a later END leads to the same jumps;
* `Pulse.ofChannel_of_finish` : windows that end in time are not cut off;
* `Layout.parallel_of_truncate` : the two compilations side by side;
* `Sequence.truncation_moves_end` : what the runs of the two programs show.
-/

namespace PulseSequencer

/-! ## Frames -/

section Frames

variable {f f' : Frame} {slots : List Slot}

theorem Build.rawTick_of_timeline (ht : f'.timeline = f.timeline) (jump : String) (r : Reference) :
    rawTick f' slots jump r = rawTick f slots jump r := by
  unfold rawTick Frame.tickOf Frame.sequence
  rw [ht]

theorem Build.slotOf_of_timeline (ht : f'.timeline = f.timeline) (hle : f.terminator ≤ f'.terminator) {j : Jump}
    {c : Channel} {sl : Slot} (h : slotOf f j c = .ok sl) : slotOf f' j c = .ok sl := by
  have hframe : f'.tickOf = f.tickOf ∧ f'.sequence = f.sequence := by
    unfold Frame.tickOf Frame.sequence
    rw [ht]
    exact ⟨rfl, rfl⟩
  obtain ⟨time, htime, h⟩ := Except.bind_eq_ok.1 h
  refine Except.bind_eq_ok.2 ⟨time, by rwa [ht], ?_⟩
  rw [hframe.1, hframe.2]
  simp only at h ⊢
  split at h
  · cases h
  · rename_i hlt
    rw [if_neg (by omega)]
    exact h

theorem Build.slotsOf_of_timeline (ht : f'.timeline = f.timeline) (hle : f.terminator ≤ f'.terminator)
    (h : (slotsOf f).outcome = .ok slots) : (slotsOf f').outcome = .ok slots := by
  obtain ⟨raw, hraw, hassign⟩ := slotsOf_eq_ok.1 h
  refine slotsOf_eq_ok.2 ⟨raw, ?_, hassign⟩
  rw [Frame.sequence, ht]
  exact hraw.imp fun e sl hsl => slotOf_of_timeline ht hle hsl

/-- A later END leads to the same jumps. -/
theorem Frame.mirrored_of_timeline (ht : f'.timeline = f.timeline) (hhigh : f'.options.highTime = f.options.highTime)
    (hcond : f'.options.maxConditions = f.options.maxConditions) (hpulses : f'.pulses = f.pulses)
    (hle : f.terminator ≤ f'.terminator) (hfinal : f'.final = f.final) (hpos : 0 < f.highTime) :
    f.Mirrored id Set.univ slots slots f' where
  register := by rw [Frame.register, Frame.register, Frame.sequence, ht, Frame.sequence]
  highTime := by rw [Frame.highTime, Frame.highTime, hhigh]
  conditions := hcond
  state tick := by rw [hpulses]
  terminator := hle
  final := ⟨Set.mem_univ _, hfinal⟩
  destination := by
    intro jump r tick h hroom
    obtain ⟨raw, hraw, htick⟩ := Build.destinationTick_eq_ok.1 h
    refine Build.destinationTick_eq_ok.2 ⟨raw, by rwa [Build.rawTick_of_timeline ht], ?_⟩
    -- a destination that had to be moved is right before the END, where there is no room for a control write
    have hraw : raw < f.terminator := by
      by_contra hclamp
      rw [if_pos (Int.not_lt.1 hclamp)] at htick
      omega
    rw [htick, if_neg (by omega), if_neg (by omega)]

end Frames

/-! ## Pulses -/

section Pulses

variable {t : Timeline} {e e' : Int}

/-- Windows that end in time are not cut off, wherever the END is. -/
theorem Pulse.intervalOf_of_finish {w : Window} (hle : e ≤ e') (hend : ∀ x, t.finishOf w.name = .ok x →
    Tick.ofTime t.sequence.hardware.delayUnit x ≤ e - 1) {xs : List Interval}
    (h : (intervalOf t e w).outcome = .ok xs) : (intervalOf t e' w).outcome = .ok xs := by
  obtain ⟨start, finish, hstart, hfinish, rfl⟩ := intervalOf_eq_ok.1 h
  refine intervalOf_eq_ok.2 ⟨start, finish, hstart, hfinish, ?_⟩
  have := hend finish hfinish
  rw [min_eq_left this, min_eq_left (by omega)]

/-- Steps that give the same results one by one give the same results together. -/
theorem Attempt.mapM_of_mem {α β : Type} {f g : α → Attempt β} {xs : List α} {ys : List β}
    (h : ∀ x ∈ xs, ∀ y, (f x).outcome = .ok y → (g x).outcome = .ok y) (hf : (xs.mapM f).outcome = .ok ys) :
    (xs.mapM g).outcome = .ok ys := by
  rw [Attempt.mapM_eq_ok] at hf ⊢
  exact List.forall₂_iff_get.2 ⟨hf.length_eq, fun i hi hi' => h _ (List.get_mem _ _) _ (hf.get hi hi')⟩

theorem Pulse.ofChannel_of_finish {c : Channel} (hle : e ≤ e') (hend : ∀ w ∈ c.windows, ∀ x,
    t.finishOf w.name = .ok x → Tick.ofTime t.sequence.hardware.delayUnit x ≤ e - 1) {ps : List Pulse}
    (h : (ofChannel t e c).outcome = .ok ps) : (ofChannel t e' c).outcome = .ok ps := by
  rcases ofChannel_eq_ok.1 h with hnone | ⟨line, intervals, hline, hintervals, rfl⟩
  · exact ofChannel_eq_ok.2 (.inl hnone)
  · refine ofChannel_eq_ok.2 (.inr ⟨line, intervals, hline, ?_, rfl⟩)
    exact Attempt.mapM_of_mem (fun w hw _ hy => intervalOf_of_finish hle (hend w hw) hy) hintervals

end Pulses

/-! ## Compilations -/

section Compilations

variable {s : Sequence} {variant : Binary64} {o o' : Options}

theorem Build.mirrored_blank (length length' : Int) :
    Build.Mirrored id (length' - 1) Set.univ (.blank length) (.blank length') := by
  refine ⟨⟨⟨fun i => ⟨Set.mem_univ _, rfl⟩, Function.injective_id.injOn, fun _ _ _ _ => Set.mem_univ _, fun l _ => ?_⟩,
    rfl, fun _ _ => Set.mem_univ _⟩, rfl⟩
  cases l <;> rfl

theorem Draft.Mirrored.draw {φ : Label → Label} {e : Int} {S : Set Label} {ps : List Pulse} : ∀ {d d' : Draft},
    d.Mirrored φ e S d' → (d.draw ps).Mirrored φ e S (d'.draw ps) := by
  induction ps with
  | nil => exact fun h => h
  | cons p ps ih => exact fun h => ih ((h.push rfl rfl).push rfl rfl)

theorem Opening.timeline_eq_of (k : Opening s variant o) (k' : Opening s variant o') : k'.timeline = k.timeline :=
  Except.ok.inj (k'.timeline_eq.symm.trans k.timeline_eq)

/-- The start is marked in the same way. -/
theorem Opening.mirrored_begun (k : Opening s variant o) (k' : Opening s variant o')
    (hf : k.frame.Mirrored id Set.univ [] [] k'.frame) :
    Build.Mirrored id (k'.length - 1) Set.univ k.begun k'.begun := by
  have hblank := Build.mirrored_blank k.length k'.length
  obtain ⟨b₁, hb₁, hbegun⟩ := k.begun_cases
  obtain ⟨b₁', hb₁', hbegun'⟩ := k'.begun_cases
  have hb : Build.Mirrored id (k'.length - 1) Set.univ b₁ b₁' := by
    rcases hb₁ with ⟨hjumps, l, hw⟩ | ⟨hjumps, rfl⟩
    · rcases hb₁' with ⟨-, l', hw'⟩ | ⟨hjumps', -⟩
      · obtain ⟨-, b₂, hw₂, hb⟩ := hblank.writeId hf hw
        cases hw'.symm.trans hw₂
        exact hb
      · cases hjumps.symm.trans hjumps'
    · rcases hb₁' with ⟨hjumps', -⟩ | ⟨-, rfl⟩
      · cases hjumps.symm.trans hjumps'
      · exact hblank
  rw [hbegun, hbegun']
  refine ⟨⟨hb.draft.board, ?_, fun _ _ => Set.mem_univ _⟩, hb.nextId⟩
  change b₁'.draft.list ++ [k'.frame.final] = (b₁.draft.list ++ [k.frame.final]).map id
  rw [hb.draft.list, hf.final.2, List.map_append, List.map_singleton]

/-- The words of a compilation are those of any of its layouts. -/
theorem Layout.encode_of_compile [Collation] (k : Layout s variant o) {c : Compiled}
    (h : (s.compile variant o).outcome = .ok c) : k.addressed.encode = .ok c.words := by
  rw [k.outcome_compile] at h
  cases hwords : k.addressed.encode with
  | error e =>
    rw [hwords] at h
    cases h
  | ok words =>
    rw [Attempt.outcome_ofExcept_ok hwords] at h
    cases h
    rfl

theorem Layout.length_le [Collation] (k : Layout s variant o) : k.length ≤ TickLine.maxLength := by
  obtain ⟨⟨ls, b⟩, hplace, -⟩ := Attempt.bind_eq_ok.1 k.placed_eq
  exact Board.length_le_of_place hplace

/-- Where the END comes later, the same pulses are drawn. -/
theorem Opening.pulses_eq_of_truncate (k : Opening s variant o) (k' : Opening s variant o') (ht : k.timeline.Ordered)
    (hfits : k.length ≤ TickLine.maxLength) (htruncate : o'.truncate = false) :
    k.length ≤ k'.length ∧ k'.pulses = k.pulses := by
  have htimeline := k.timeline_eq_of k'
  have hfull : k'.length = Tick.ofTime k.timeline.sequence.hardware.delayUnit k.timeline.sequence.length := by
    rcases Sequence.ticks_cases k'.length_eq with hfull | ⟨htrue, -⟩
    · rw [hfull, htimeline]
    · cases htruncate.symm.trans htrue
  have hle : k.length ≤ k'.length := by
    rcases Sequence.ticks_cases k.length_eq with heq | ⟨-, latest, -, -, heq⟩
    · rw [heq, hfull]
    · rw [heq, hfull]
      exact min_le_left _ _
  refine ⟨hle, ?_⟩
  have hpulses' := k'.pulses_eq
  rw [htimeline] at hpulses'
  rcases Int.lt_or_eq_of_le hle with hlt | heq
  swap
  · rw [← heq, k.pulses_eq] at hpulses'
    exact (Except.ok.inj hpulses').symm
  -- a shorter program ends after the latest event, which no window outlasts
  have hshort : ∃ latest, k.timeline.latest = .ok latest ∧ ¬ latest ≤ 0 ∧
      k.length = Tick.ofTime k.timeline.sequence.hardware.delayUnit latest + 2 := by
    rcases Sequence.ticks_cases k.length_eq with heq | ⟨-, latest, hlatest, hpos, heq⟩
    · omega
    · exact ⟨latest, hlatest, hpos, by omega⟩
  obtain ⟨latest, hlatest, hpos, hlength⟩ := hshort
  have hnan : latest.isNaN = false := by
    cases hnan : latest.isNaN with
    | false => rfl
    | true =>
      rw [Binary64.eq_nan hnan, Tick.ofTime_nan] at hlength
      have hfar : TickLine.maxLength < Tick.unbounded := by decide +kernel
      omega
  have hsame : (k.timeline.sequence.channels.mapM (Pulse.ofChannel k.timeline (k'.length - 1))).outcome =
      .ok k.pulses :=
    Attempt.mapM_of_mem (fun c hc _ hy => Pulse.ofChannel_of_finish (by omega) (fun w hw x hx => by
      have := ht.finish_le hlatest hnan hpos hc hw hx
      omega) hy) k.pulses_eq
  rw [hsame] at hpulses'
  exact (Except.ok.inj hpulses').symm

/-- A truncated compilation and the full one, side by side. -/
theorem Layout.parallel_of_truncate [Collation] (k : Layout s variant o) (k' : Layout s variant o')
    (ht : k.timeline.Ordered) (htruncate : o'.truncate = false) (hhigh : o'.highTime = o.highTime)
    (hcond : o'.maxConditions = o.maxConditions) (hpos : 0 < k.frame.highTime) :
    Layout.Parallel id Set.univ k k'.toOpening k'.outlined k'.slots := by
  have htimeline : k'.frame.timeline = k.frame.timeline := k.timeline_eq_of k'.toOpening
  obtain ⟨hle, hpulses⟩ := k.pulses_eq_of_truncate k'.toOpening ht k.length_le htruncate
  have hterminator : k.frame.terminator ≤ k'.frame.terminator := Int.sub_le_sub_right hle 1
  have hframe : ∀ slots, k.frame.Mirrored id Set.univ slots slots k'.frame := fun slots =>
    Frame.mirrored_of_timeline htimeline hhigh hcond (congrArg List.flatten hpulses) hterminator rfl hpos
  have hbegun := k.mirrored_begun k'.toOpening (hframe [])
  have hdrawn : k.drawn.Mirrored id (k'.length - 1) Set.univ k'.drawn := by
    rw [Opening.drawn, Opening.drawn, show k'.frame.pulses = k.frame.pulses from congrArg List.flatten hpulses]
    exact hbegun.draft.draw
  obtain ⟨outlined, houtlined, hm⟩ := hdrawn.mergeSets k.ready_drawn.linked k.outlines_drawn.inside
    k.early_drawn.closes hterminator k.outlined_eq
  rw [← (hframe []).register] at houtlined
  cases k'.outlined_eq.symm.trans houtlined
  have hslots := Build.slotsOf_of_timeline htimeline hterminator k.slots_eq
  rw [Except.ok.inj (k'.slots_eq.symm.trans hslots)]
  refine ⟨k'.outlined_eq, hslots, hframe k.slots, hbegun.nextId, hm, ?_, k'.length_le⟩
  exact List.forall₂_same.2 fun sl _ => ⟨rfl, rfl, rfl, fun _ h => h⟩

theorem Layout.closes_settled [Collation] (k : Layout s variant o) :
    k.settled.board.Closes k.frame.final (k.length - 1) k.settled.list :=
  k.closes_placed.of_redriven k.settled_spec.2.1 (List.Perm.of_eq k.settled_spec.1)

end Compilations

/-- Truncation moves the END and nothing else, as long as later events have later ticks: with ticks enough for both
runs, the truncated program shows the same changes of the bus and takes the same jumps at the same ticks as the full
one, halts for the same reason, and no later. -/
theorem Sequence.truncation_moves_end [Collation] {s : Sequence} {variant : Binary64} {o : Options}
    {truncated full : Compiled} (ho : o.complaint? = none) (ht : ∀ t, Timeline.ofVariant s variant = .ok t → t.Ordered)
    (h : (s.compile variant { o with truncate := true }).outcome = .ok truncated)
    (h' : (s.compile variant { o with truncate := false }).outcome = .ok full)
    (counts : Nat → Nat → Int) (idle : Int) (maxJumps maxTicks : Nat) :
    let m : Machine := ⟨truncated.words.toArray, counts, maxJumps, maxTicks⟩
    let m' : Machine := ⟨full.words.toArray, counts, maxJumps, maxTicks⟩
    ∃ r r', m.run (.initial idle) = .ok r ∧ m'.run (.initial idle) = .ok r' ∧
      (r.halted ≠ some .tickLimit → r'.halted ≠ some .tickLimit →
        r'.changes = r.changes ∧ m'.taken r' = m.taken r ∧ r'.halted = r.halted ∧ r.halted ≠ none ∧
          r.tick ≤ r'.tick) := by
  intro m m'
  obtain ⟨k, hk⟩ := Layout.exists_of_compile h
  obtain ⟨k', hk'⟩ := Layout.exists_of_compile h'
  have hpos : 0 < k.frame.highTime := Options.highTime_pos ho
  have hparallel := k.parallel_of_truncate k' (ht _ k.timeline_eq) rfl rfl rfl hpos
  obtain ⟨k₁, hopening, hmirrored⟩ := hparallel.exists_layout
  have he : k.length - 1 ≤ k'.length - 1 := hparallel.frame.terminator
  have hr := Layout.realizes hk
  have hr' := Layout.realizes (k₁.encode_of_compile h')
  have hstart : (Walk.initial idle).position ≤ k.length - 1 := by
    have := k.two_le
    change (0 : Int) ≤ k.length - 1
    omega
  have hruns : ∃ r r', m.runFor (maxTicks - 0 + 1) (.initial idle) = .ok r ∧
      m'.runFor (maxTicks - 0 + 1) (.initial idle) = .ok r' ∧ (r'.halted ≠ some .tickLimit → Draft.Alike m m' r r') :=
    Draft.exists_alike hmirrored k.closes_settled he hr hr' _ (hr.agrees_initial idle) (hr'.agrees_initial idle)
      (.of_le rfl hstart he) rfl rfl
  obtain ⟨r, r', hrun, hrun', halike⟩ := hruns
  refine ⟨r, r', hrun, hrun', fun _ hlimit => ?_⟩
  have halike := halike hlimit
  have hhalted : r'.halted ≠ none := Machine.halted_of_runFor (Nat.lt_succ_self _) hrun'
  have heq := halike.halted hhalted
  exact ⟨halike.changes, halike.taken, heq, heq ▸ hhalted, halike.tick⟩

/-- Eight ticks of the gated sequence are cut off. -/
theorem Bench.gated_truncated : ∃ truncated full,
    (gated.compile 0 { quick with truncate := true }).outcome = .ok truncated ∧
    (gated.compile 0 { quick with truncate := false }).outcome = .ok full ∧
    truncated.report.length = 32 ∧ full.report.length = 40 ∧
    ∀ (counts : Nat → Nat → Int) (idle : Int) (maxJumps maxTicks : Nat),
      let m : Machine := ⟨truncated.words.toArray, counts, maxJumps, maxTicks⟩
      let m' : Machine := ⟨full.words.toArray, counts, maxJumps, maxTicks⟩
      ∃ r r', m.run (.initial idle) = .ok r ∧ m'.run (.initial idle) = .ok r' ∧
        (r.halted ≠ some .tickLimit → r'.halted ≠ some .tickLimit → r'.changes = r.changes ∧ m'.taken r' = m.taken r ∧
          r'.halted = r.halted ∧ r.halted ≠ none ∧ r.tick ≤ r'.tick) := by
  have hlength : (gated.compile 0 { quick with truncate := true }).outcome.map (·.report.length) = .ok 32 := by
    decide +kernel
  have hlength' : (gated.compile 0 { quick with truncate := false }).outcome.map (·.report.length) = .ok 40 := by
    decide +kernel
  have hordered : (Timeline.ofVariant gated 0).map (fun t => decide t.Ordered) = .ok true := by decide +kernel
  cases h : (gated.compile 0 { quick with truncate := true }).outcome with
  | error e =>
    rw [h] at hlength
    cases hlength
  | ok truncated =>
    cases h' : (gated.compile 0 { quick with truncate := false }).outcome with
    | error e =>
      rw [h'] at hlength'
      cases hlength'
    | ok full =>
      rw [h] at hlength
      rw [h'] at hlength'
      refine ⟨truncated, full, rfl, rfl, Except.ok.inj hlength, Except.ok.inj hlength',
        Sequence.truncation_moves_end (o := quick) (by decide) (fun t ht => ?_) h h'⟩
      rw [ht] at hordered
      exact of_decide_eq_true (Except.ok.inj hordered)

end PulseSequencer
