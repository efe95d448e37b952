import PulseSequencer.Proofs.Pulses
import PulseSequencer.Proofs.Timing

/-!
# Levels of the output lines

What the windows of a sequence ask for at a tick, and that the pulses give it.

* `Timeline.levels` : the lines of the channels with an open window;
* `Pulse.exists_of_channels` : a verified sequence has pulses;
* `Pulse.bounds_of_channels` : they lie between the first tick and the last two;
* `Pulse.stateAt_eq_levels` : their signal is what the windows ask for.
-/

namespace PulseSequencer

namespace Timeline

/-- Whether a window is open at a tick. Every window is closed in the last two ticks of the sequence. -/
def isOpen (t : Timeline) (length tick : Int) (w : Window) : Bool :=
  match t.startOf w.name, t.finishOf w.name with
  | .ok start, .ok finish =>
    decide (Tick.ofTime t.sequence.hardware.delayUnit start ≤ tick) &&
      decide (tick < min (Tick.ofTime t.sequence.hardware.delayUnit finish) (length - 2))
  | _, _ => false

/-- The line of a channel with an open window. -/
def highLine? (t : Timeline) (length tick : Int) (c : Channel) : Option Int :=
  if c.windows.any (t.isOpen length tick) then (Pulse.lineOf t.sequence.hardware c).toOption.join else none

/-- The bus value that the windows ask for at a tick, before the polarity of the lines. -/
def levels (t : Timeline) (length tick : Int) : Int :=
  (t.sequence.channels.filterMap (t.highLine? length tick)).foldl
    (fun state line => Bits.or state (Bits.single line)) 0

theorem levels_eq_zero {t : Timeline} {length tick : Int} (h : length - 2 ≤ tick) : t.levels length tick = 0 := by
  have hnone : ∀ c, t.highLine? length tick c = none := fun c => by
    unfold highLine?
    rw [if_neg]
    rw [List.any_eq_true]
    rintro ⟨w, -, hopen⟩
    unfold isOpen at hopen
    split at hopen
    · simp only [Bool.and_eq_true, decide_eq_true_eq] at hopen
      omega
    · cases hopen
  unfold levels
  rw [List.filterMap_eq_nil_iff.2 fun c _ => hnone c]
  rfl

end Timeline

theorem Attempt.exists_mapM {α β : Type} {f : α → Attempt β} {xs : List α}
    (h : ∀ x ∈ xs, ∃ y, (f x).outcome = .ok y) : ∃ ys, (xs.mapM f).outcome = .ok ys := by
  simp only [mapM_eq_ok]
  induction xs with
  | nil => exact ⟨[], .nil⟩
  | cons x xs ih =>
    obtain ⟨y, hy⟩ := h x List.mem_cons_self
    obtain ⟨ys, hys⟩ := ih fun x hx => h x (List.mem_cons_of_mem _ hx)
    exact ⟨y :: ys, .cons hy hys⟩

namespace Pulse

theorem exists_mem_clip {start finish t : Int} : (∃ x ∈ clip start finish, x.Has t) ↔ start ≤ t ∧ t < finish := by
  unfold clip
  split
  · simp
    omega
  · simp [Interval.Has]

variable {t : Timeline} {length : Int}

/-- The ticks of the intervals of a list of windows. -/
theorem exists_interval_iff {ws : List Window} {intervals : List (List Interval)}
    (h : (ws.mapM (intervalOf t (length - 1))).outcome = .ok intervals) (tick : Int) :
    (∃ x ∈ intervals.flatten, x.Has tick) ↔ ws.any (t.isOpen length tick) = true := by
  have hall := Attempt.mapM_eq_ok.1 h
  have hopen : ∀ w xs, (intervalOf t (length - 1) w).outcome = .ok xs →
      ((∃ x ∈ xs, x.Has tick) ↔ t.isOpen length tick w = true) := by
    intro w xs hxs
    obtain ⟨start, finish, hstart, hfinish, rfl⟩ := intervalOf_eq_ok.1 hxs
    rw [exists_mem_clip, Timeline.isOpen, hstart, hfinish, Int.sub_sub, Bool.and_eq_true, decide_eq_true_eq,
      decide_eq_true_eq]
    rfl
  simp only [List.mem_flatten, List.any_eq_true]
  constructor
  · rintro ⟨x, ⟨xs, hxs, hx⟩, hhas⟩
    obtain ⟨w, hw, hwx⟩ := forall₂_exists_left hall hxs
    exact ⟨w, hw, (hopen w xs hwx).1 ⟨x, hx, hhas⟩⟩
  · rintro ⟨w, hw, hwopen⟩
    obtain ⟨xs, hxs, hwx⟩ := forall₂_exists_right hall hw
    obtain ⟨x, hx, hhas⟩ := (hopen w xs hwx).2 hwopen
    exact ⟨x, ⟨xs, hxs, hx⟩, hhas⟩

/-- The ticks of the pulses of a channel. -/
theorem exists_pulse_iff {c : Channel} {ps : List Pulse} (h : (ofChannel t (length - 1) c).outcome = .ok ps)
    (tick line : Int) :
    (∃ p ∈ ps, p.interval.Has tick ∧ p.line = line) ↔ t.highLine? length tick c = some line := by
  unfold Timeline.highLine?
  rcases ofChannel_eq_ok.1 h with ⟨hline, rfl⟩ | ⟨own, intervals, hline, hintervals, rfl⟩
  · rw [hline]
    split <;> simp [Except.toOption]
  · have hticks : (∃ x ∈ Interval.merge intervals.flatten, x.Has tick) ↔ c.windows.any (t.isOpen length tick) = true :=
      ((mergesTo_of_mapM hintervals).ticks tick).trans (exists_interval_iff hintervals tick)
    rw [hline]
    simp only [List.mem_map, exists_exists_and_eq_and]
    split
    · obtain ⟨x, hx, hhas⟩ := hticks.2 ‹_›
      simp only [Except.toOption, Option.join_some, Option.some.injEq]
      constructor
      · rintro ⟨_, _, _, heq⟩
        exact heq
      · exact fun heq => ⟨x, hx, hhas, heq⟩
    · rename_i hnone
      simp only [reduceCtorEq, iff_false]
      rintro ⟨x, hx, hhas, -⟩
      exact hnone (hticks.1 ⟨x, hx, hhas⟩)

section Channels

variable {pss : List (List Pulse)} (h : (t.sequence.channels.mapM (ofChannel t (length - 1))).outcome = .ok pss)

include h

theorem stateAt_eq_levels (tick : Int) : stateAt pss.flatten tick = t.levels length tick := by
  have hall := Attempt.mapM_eq_ok.1 h
  have hbits : Bits.bits (stateAt pss.flatten tick) = Bits.bits (t.levels length tick) := by
    refine Bits.bits_eq_iff.2 fun i => Bool.eq_iff_iff.2 ?_
    rw [bit_stateAt, Timeline.levels, Bits.bit_foldl_or_single fun line => line, Bits.bit_zero, Bool.false_or,
      List.any_eq_true]
    simp only [List.mem_filterMap, decide_eq_true_eq]
    constructor
    · rintro ⟨p, hp, hhas, hi⟩
      obtain ⟨ps, hps, hp⟩ := List.mem_flatten.1 hp
      obtain ⟨c, hc, hcps⟩ := forall₂_exists_left hall hps
      exact ⟨p.line, ⟨c, hc, (exists_pulse_iff hcps tick p.line).1 ⟨p, hp, hhas, rfl⟩⟩, hi⟩
    · rintro ⟨line, ⟨c, hc, hline⟩, hi⟩
      obtain ⟨ps, hps, hcps⟩ := forall₂_exists_right hall hc
      obtain ⟨p, hp, hhas, rfl⟩ := (exists_pulse_iff hcps tick line).2 hline
      exact ⟨p, List.mem_flatten.2 ⟨ps, hps, hp⟩, hhas, hi⟩
  have hstate : (Bits.bits (stateAt pss.flatten tick)).toInt = stateAt pss.flatten tick :=
    Bits.toInt_bits_foldl_or Pulse.line _ rfl
  have hlevels : (Bits.bits (t.levels length tick)).toInt = t.levels length tick :=
    Bits.toInt_bits_foldl_or (fun line => line) _ rfl
  rw [← hstate, hbits, hlevels]

/-- A window is open at every tick of a pulse. -/
theorem exists_isOpen_of_pulse {p : Pulse} (hp : p ∈ pss.flatten) {tick : Int} (hhas : p.interval.Has tick) :
    ∃ c ∈ t.sequence.channels, ∃ w ∈ c.windows, t.isOpen length tick w = true := by
  obtain ⟨ps, hps, hp⟩ := List.mem_flatten.1 hp
  obtain ⟨c, hc, hcps⟩ := forall₂_exists_left (Attempt.mapM_eq_ok.1 h) hps
  have hline := (exists_pulse_iff hcps tick p.line).1 ⟨p, hp, hhas, rfl⟩
  unfold Timeline.highLine? at hline
  split at hline
  · exact ⟨c, hc, List.any_eq_true.1 ‹_›⟩
  · cases hline

/-- No pulse reaches the last two ticks. -/
theorem finish_le_of_channels : ∀ p ∈ pss.flatten, p.interval.start < p.interval.finish →
    p.interval.finish ≤ length - 2 := by
  intro p hp hne
  obtain ⟨c, -, w, -, hopen⟩ := exists_isOpen_of_pulse h hp (show p.interval.Has (p.interval.finish - 1) from
    ⟨by omega, by omega⟩)
  unfold Timeline.isOpen at hopen
  split at hopen
  · simp only [Bool.and_eq_true, decide_eq_true_eq] at hopen
    omega
  · cases hopen

/-- No pulse starts before the first tick, or reaches the last two. -/
theorem bounds_of_channels (hunit : 0 < t.sequence.hardware.delayUnit) (ht : t.Resolves) :
    ∀ p ∈ pss.flatten, p.interval.start < p.interval.finish →
      0 ≤ p.interval.start ∧ p.interval.finish ≤ length - 2 := by
  intro p hp hne
  refine ⟨?_, finish_le_of_channels h p hp hne⟩
  obtain ⟨c, hc, w, hw, hopen⟩ :=
    exists_isOpen_of_pulse h hp (show p.interval.Has p.interval.start from ⟨le_refl _, hne⟩)
  obtain ⟨start, finish, hstart, hfinish, hnonneg, -⟩ := ht c hc w hw
  rw [Timeline.isOpen, hstart, hfinish] at hopen
  simp only [Bool.and_eq_true, decide_eq_true_eq] at hopen
  have := Tick.ofTime_nonneg hunit hnonneg
  omega

end Channels

theorem exists_lineOf {s : Sequence} {c : Channel} (h : s.checkChannel c = .ok ()) :
    ∃ line, lineOf s.hardware c = .ok line := by
  unfold Sequence.checkChannel at h
  unfold lineOf
  cases hrole : c.role with
  | counter => exact ⟨none, rfl⟩
  | output =>
    rw [hrole] at h
    obtain ⟨x, hx, -⟩ := Except.bind_eq_ok.1 h
    exact ⟨some x.channel.toWhole, Except.bind_eq_ok.2 ⟨x, hx, rfl⟩⟩
  | control jumps =>
    rw [hrole] at h
    obtain ⟨x, hx, -⟩ := Except.bind_eq_ok.1 h
    exact ⟨some x.gate.toWhole, Except.bind_eq_ok.2 ⟨x, hx, rfl⟩⟩

theorem exists_of_channels {s : Sequence} (hs : s.Verified) (hseq : t.sequence = s) (ht : t.Resolves)
    (terminator : Int) : ∃ pss, (t.sequence.channels.mapM (ofChannel t terminator)).outcome = .ok pss := by
  refine Attempt.exists_mapM fun c hc => ?_
  obtain ⟨intervals, hintervals⟩ : ∃ intervals, (c.windows.mapM (intervalOf t terminator)).outcome = .ok intervals :=
    Attempt.exists_mapM fun w hw => by
      obtain ⟨start, finish, hstart, hfinish, -⟩ := ht c hc w hw
      exact ⟨_, intervalOf_of_ok terminator hstart hfinish⟩
  obtain ⟨line, hline⟩ := exists_lineOf (hs.lines c (hseq ▸ hc))
  rw [← hseq] at hline
  cases line with
  | none => exact ⟨[], ofChannel_eq_ok.2 (.inl ⟨hline, rfl⟩)⟩
  | some line => exact ⟨_, ofChannel_eq_ok.2 (.inr ⟨line, intervals, hline, hintervals, rfl⟩)⟩

end Pulse

end PulseSequencer
