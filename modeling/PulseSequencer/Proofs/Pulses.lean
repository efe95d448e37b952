import PulseSequencer.Proofs.Lines
import PulseSequencer.Proofs.Sort

/-!
# Pulses and the signal they make

* `Interval.MergesTo`, `Interval.mergesTo_merge` : merging keeps the ticks and leaves gaps between the intervals;
* `Pulse.intervalOf_eq_ok`, `Pulse.ofChannel_eq_ok` : the pulses of windows and channels;
* `Pulse.Sound`, `Pulse.sound_of_channels` : pulses of one line never meet;
* `Pulse.bit_stateAt_start`, `Pulse.bit_stateAt_finish`, `Pulse.exists_of_edge` : where the lines of a signal change.
-/

namespace PulseSequencer

namespace Interval

/-- The tick is in the interval. -/
def Has (x : Interval) (t : Int) : Prop := x.start ≤ t ∧ t < x.finish

/-- The intervals `ys` have the ticks of `xs`; they are in order, not empty, and do not touch. -/
structure MergesTo (xs ys : List Interval) : Prop where
  nonempty : ∀ y ∈ ys, y.start < y.finish
  apart : ys.Pairwise fun a b => a.finish < b.start
  ticks : ∀ t, (∃ y ∈ ys, y.Has t) ↔ ∃ x ∈ xs, x.Has t

theorem start_le_of_mem_mergeFrom {xs : List Interval} : ∀ {last : Interval}, (∀ x ∈ xs, last.start ≤ x.start) →
    (xs.Pairwise fun a b => a.start ≤ b.start) → ∀ y ∈ mergeFrom last xs, last.start ≤ y.start := by
  induction xs with
  | nil => simp [mergeFrom]
  | cons x xs ih =>
    intro last hlast hsorted y hy
    obtain ⟨hx, hsorted⟩ := List.pairwise_cons.1 hsorted
    have hlx := hlast x List.mem_cons_self
    unfold mergeFrom at hy
    split at hy
    · exact @ih ⟨last.start, max last.finish x.finish⟩
        (fun z hz => hlast z (List.mem_cons_of_mem _ hz)) hsorted y hy
    · rcases List.mem_cons.1 hy with rfl | hy
      · exact le_refl _
      · exact hlx.trans (ih hx hsorted y hy)

theorem mergesTo_mergeFrom {xs : List Interval} : ∀ {last : Interval}, last.start < last.finish →
    (∀ x ∈ xs, x.start < x.finish) → (∀ x ∈ xs, last.start ≤ x.start) → (xs.Pairwise fun a b => a.start ≤ b.start) →
    MergesTo (last :: xs) (mergeFrom last xs) := by
  induction xs with
  | nil => exact fun h _ _ _ => ⟨by simpa [mergeFrom] using h, by simp [mergeFrom], by simp [mergeFrom]⟩
  | cons x xs ih =>
    intro last hne hxs hlast hsorted
    obtain ⟨hx, hsorted⟩ := List.pairwise_cons.1 hsorted
    have hlx := hlast x List.mem_cons_self
    have hxne := hxs x List.mem_cons_self
    have hxs' : ∀ z ∈ xs, z.start < z.finish := fun z hz => hxs z (List.mem_cons_of_mem _ hz)
    unfold mergeFrom
    split
    · rename_i hmeet
      obtain ⟨h1, h2, h3⟩ := @ih ⟨last.start, max last.finish x.finish⟩
        (lt_of_lt_of_le hne (le_max_left _ _)) hxs' (fun z hz => hlast z (List.mem_cons_of_mem _ hz)) hsorted
      refine ⟨h1, h2, fun t => (h3 t).trans ?_⟩
      -- the two intervals overlap or touch, so together they have the ticks of their hull
      have hunion : (⟨last.start, max last.finish x.finish⟩ : Interval).Has t ↔ last.Has t ∨ x.Has t := by
        simp only [Has]
        omega
      simp only [List.mem_cons, exists_eq_or_imp, hunion, or_assoc]
    · rename_i hgap
      obtain ⟨h1, h2, h3⟩ := ih hxne hxs' hx hsorted
      refine ⟨?_, List.pairwise_cons.2 ⟨fun y hy => ?_, h2⟩, fun t => ?_⟩
      · rintro y hy
        rcases List.mem_cons.1 hy with rfl | hy
        · exact hne
        · exact h1 y hy
      · have := start_le_of_mem_mergeFrom hx hsorted y hy
        omega
      · rw [List.exists_mem_cons_iff, h3, List.exists_mem_cons_iff _ last (x :: xs)]

theorem mergesTo_merge {xs : List Interval} (h : ∀ x ∈ xs, x.start < x.finish) : MergesTo xs (merge xs) := by
  have hmem : ∀ x, x ∈ Sort.sortBy (fun a b : Interval => decide (a.start ≤ b.start)) xs ↔ x ∈ xs := fun x =>
    Sort.mem_sortBy
  have hsorted : (Sort.sortBy (fun a b : Interval => decide (a.start ≤ b.start)) xs).Pairwise fun a b =>
      decide (a.start ≤ b.start) = true := Sort.pairwise_sortBy
    (fun a b => by simp only [decide_eq_true_eq]; omega) (fun a b c => by simp only [decide_eq_true_eq]; omega) xs
  unfold merge
  split
  · rename_i hnil
    refine ⟨by simp, by simp, fun t => ?_⟩
    simp [← hmem, hnil]
  · rename_i x rest hcons
    rw [hcons] at hmem hsorted
    simp only [decide_eq_true_eq] at hsorted
    obtain ⟨hx, hsorted⟩ := List.pairwise_cons.1 hsorted
    obtain ⟨h1, h2, h3⟩ := mergesTo_mergeFrom (h x ((hmem x).1 List.mem_cons_self))
      (fun z hz => h z ((hmem z).1 (List.mem_cons_of_mem _ hz))) hx hsorted
    exact ⟨h1, h2, fun t => (h3 t).trans (exists_congr fun z => by rw [hmem])⟩

end Interval

namespace Pulse

/-! ## Windows and channels -/

/-- The interval from `start` to `finish`, unless it is empty. -/
def clip (start finish : Int) : List Interval := if finish ≤ start then [] else [⟨start, finish⟩]

theorem intervalOf_of_ok {t : Timeline} (terminator : Int) {w : Window} {start finish : Binary64}
    (hstart : t.startOf w.name = .ok start) (hfinish : t.finishOf w.name = .ok finish) :
    (intervalOf t terminator w).outcome = .ok (clip (Tick.ofTime t.sequence.hardware.delayUnit start)
      (min (Tick.ofTime t.sequence.hardware.delayUnit finish) (terminator - 1))) := by
  unfold intervalOf
  rw [Attempt.outcome_bind_of_ok (Attempt.outcome_ofExcept_ok hstart),
    Attempt.outcome_bind_of_ok (Attempt.outcome_ofExcept_ok hfinish)]
  have hmin : ∀ f : Int, min f (terminator - 1) = if terminator ≤ f then terminator - 1 else f := by
    intro f
    split <;> omega
  rw [clip, hmin]
  simp only
  split
  · rw [Attempt.outcome_bind_of_ok (Attempt.outcome_warn _ _), Attempt.outcome_bind_of_ok (Attempt.outcome_pure _)]
    split <;> rfl
  · rw [Attempt.outcome_bind_of_ok (Attempt.outcome_pure _)]
    split <;> rfl

theorem intervalOf_eq_ok {t : Timeline} {terminator : Int} {w : Window} {xs : List Interval} :
    (intervalOf t terminator w).outcome = .ok xs ↔ ∃ start finish, t.startOf w.name = .ok start ∧
      t.finishOf w.name = .ok finish ∧
      xs = clip (Tick.ofTime t.sequence.hardware.delayUnit start)
        (min (Tick.ofTime t.sequence.hardware.delayUnit finish) (terminator - 1)) := by
  constructor
  · intro h
    obtain ⟨start, hstart, h'⟩ := Attempt.bind_eq_ok.1 h
    obtain ⟨finish, hfinish, -⟩ := Attempt.bind_eq_ok.1 h'
    rw [Attempt.ofExcept_eq_ok] at hstart hfinish
    rw [intervalOf_of_ok terminator hstart hfinish] at h
    cases h
    exact ⟨start, finish, hstart, hfinish, rfl⟩
  · rintro ⟨start, finish, hstart, hfinish, rfl⟩
    exact intervalOf_of_ok terminator hstart hfinish

theorem start_lt_finish_of_intervalOf {t : Timeline} {terminator : Int} {w : Window} {xs : List Interval}
    (h : (intervalOf t terminator w).outcome = .ok xs) : ∀ x ∈ xs, x.start < x.finish := by
  obtain ⟨start, finish, -, -, rfl⟩ := intervalOf_eq_ok.1 h
  intro x hx
  unfold clip at hx
  split at hx
  · cases hx
  · rw [List.mem_singleton.1 hx]
    exact not_le.1 ‹_›

/-- The pulses of a channel are those of its line, if it has one. -/
theorem ofChannel_eq_ok {t : Timeline} {terminator : Int} {c : Channel} {ps : List Pulse} :
    (ofChannel t terminator c).outcome = .ok ps ↔
      (lineOf t.sequence.hardware c = .ok none ∧ ps = []) ∨
      ∃ line intervals, lineOf t.sequence.hardware c = .ok (some line) ∧
        (c.windows.mapM (intervalOf t terminator)).outcome = .ok intervals ∧
        ps = (Interval.merge intervals.flatten).map fun interval => ⟨interval, line⟩ := by
  unfold ofChannel
  rw [Attempt.bind_eq_ok]
  simp only [Attempt.ofExcept_eq_ok]
  constructor
  · rintro ⟨none | line, hline, h⟩
    · cases h
      exact .inl ⟨hline, rfl⟩
    · obtain ⟨intervals, hintervals, h⟩ := Attempt.bind_eq_ok.1 h
      cases h
      exact .inr ⟨line, intervals, hline, hintervals, rfl⟩
  · rintro (⟨hline, rfl⟩ | ⟨line, intervals, hline, hintervals, rfl⟩)
    · exact ⟨none, hline, rfl⟩
    · exact ⟨some line, hline, Attempt.bind_eq_ok.2 ⟨intervals, hintervals, rfl⟩⟩

theorem mergesTo_of_mapM {t : Timeline} {terminator : Int} {ws : List Window} {intervals : List (List Interval)}
    (h : (ws.mapM (intervalOf t terminator)).outcome = .ok intervals) :
    Interval.MergesTo intervals.flatten (Interval.merge intervals.flatten) := by
  refine Interval.mergesTo_merge fun x hx => ?_
  obtain ⟨xs, hxs, hx⟩ := List.mem_flatten.1 hx
  obtain ⟨w, -, hw⟩ := forall₂_exists_left (Attempt.mapM_eq_ok.1 h) hxs
  exact start_lt_finish_of_intervalOf hw x hx

/-! ## All pulses -/

/-- Pulses on lines of the hardware, those of one line one after the other. -/
structure Sound (h : Hardware) (ps : List Pulse) : Prop where
  onLine : ∀ p ∈ ps, OnLine h p.line
  nonempty : ∀ p ∈ ps, p.interval.start < p.interval.finish
  apart : ps.Pairwise fun p q => p.line = q.line → p.interval.finish < q.interval.start

theorem sound_of_ofChannel {t : Timeline} {terminator : Int} {c : Channel} {ps : List Pulse}
    (hc : t.sequence.hardware.Checked) (h : (ofChannel t terminator c).outcome = .ok ps) :
    Sound t.sequence.hardware ps ∧ ∀ p ∈ ps, lineOf t.sequence.hardware c = .ok (some p.line) := by
  rcases ofChannel_eq_ok.1 h with ⟨-, rfl⟩ | ⟨line, intervals, hline, hintervals, rfl⟩
  · exact ⟨⟨by simp, by simp, by simp⟩, by simp⟩
  · obtain ⟨hne, hapart, -⟩ := mergesTo_of_mapM hintervals
    refine ⟨⟨?_, ?_, ?_⟩, ?_⟩
    · simpa using fun _ _ => onLine_of_lineOf hc hline
    · simpa using hne
    · refine List.pairwise_map.2 (hapart.imp ?_)
      intro a b hlt _
      exact hlt
    · simpa using fun _ _ => hline

theorem sound_of_channels {t : Timeline} {terminator : Int} {cs : List Channel} {pss : List (List Pulse)}
    (hc : t.sequence.hardware.Checked) (hnames : cs.Pairwise fun a b => a.name ≠ b.name)
    (h : (cs.mapM (ofChannel t terminator)).outcome = .ok pss) : Sound t.sequence.hardware pss.flatten := by
  have hall := Attempt.mapM_eq_ok.1 h
  have hsound : ∀ ps ∈ pss, Sound t.sequence.hardware ps := fun ps hps => by
    obtain ⟨c, -, hps⟩ := forall₂_exists_left hall hps
    exact (sound_of_ofChannel hc hps).1
  refine ⟨fun p hp => ?_, fun p hp => ?_, List.pairwise_flatten.2 ⟨fun ps hps => (hsound ps hps).apart, ?_⟩⟩
  · obtain ⟨ps, hps, hp⟩ := List.mem_flatten.1 hp
    exact (hsound ps hps).onLine p hp
  · obtain ⟨ps, hps, hp⟩ := List.mem_flatten.1 hp
    exact (hsound ps hps).nonempty p hp
  · -- different channels have different lines
    refine pairwise_of_forall₂ hall hnames fun c c' ps qs hne hps hqs p hp q hq heq => ?_
    exact absurd heq (lineOf_ne hc hne ((sound_of_ofChannel hc hps).2 p hp) ((sound_of_ofChannel hc hqs).2 q hq))

/-! ## The signal -/

theorem covers_iff {p : Pulse} {t : Int} : p.covers t = true ↔ p.interval.Has t := by simp [covers, Interval.Has]

theorem bit_stateAt (ps : List Pulse) (t : Int) (i : Nat) :
    Bits.bit (stateAt ps t) i = true ↔ ∃ p ∈ ps, p.interval.Has t ∧ i = Bits.position p.line := by
  rw [stateAt, Bits.bit_foldl_or_single, Bits.bit_zero, Bool.false_or, List.any_eq_true]
  simp only [List.mem_filter, covers_iff, decide_eq_true_eq, and_assoc]

section

variable {h : Hardware} {ps : List Pulse} {p : Pulse}

theorem bit_stateAt_start (hs : Sound h ps) (hp : p ∈ ps) :
    Bits.bit (stateAt ps p.interval.start) (Bits.position p.line) = true :=
  (bit_stateAt ps _ _).2 ⟨p, hp, ⟨le_refl _, hs.nonempty p hp⟩, rfl⟩

theorem Sound.line_eq (hs : Sound h ps) {q : Pulse} (hp : p ∈ ps) (hq : q ∈ ps)
    (heq : Bits.position p.line = Bits.position q.line) : p.line = q.line := by
  rw [(hs.onLine p hp).position, (hs.onLine q hq).position] at heq
  have h1 := (hs.onLine p hp).nonneg
  have h2 := (hs.onLine q hq).nonneg
  omega

theorem Sound.eq_or_apart (hs : Sound h ps) {q : Pulse} (hp : p ∈ ps) (hq : q ∈ ps)
    (heq : Bits.position p.line = Bits.position q.line) :
    p = q ∨ p.interval.finish < q.interval.start ∨ q.interval.finish < p.interval.start := by
  have hline := hs.line_eq hp hq heq
  rcases eq_or_of_pairwise hs.apart hp hq with heq | hlt | hlt
  · exact .inl heq
  · exact .inr (.inl (hlt hline))
  · exact .inr (.inr (hlt hline.symm))

theorem bit_stateAt_finish (hs : Sound h ps) (hp : p ∈ ps) :
    Bits.bit (stateAt ps p.interval.finish) (Bits.position p.line) = false := by
  rw [← Bool.not_eq_true, bit_stateAt]
  rintro ⟨q, hq, ⟨hstart, hfinish⟩, heq⟩
  have := hs.nonempty p hp
  rcases hs.eq_or_apart hp hq heq with rfl | hlt | hlt <;> omega

/-- The signal changes where a pulse starts. -/
theorem stateAt_start_ne (hs : Sound h ps) (hp : p ∈ ps) :
    stateAt ps (p.interval.start - 1) ≠ stateAt ps p.interval.start := by
  intro hsame
  have hbit := bit_stateAt_start hs hp
  rw [← hsame, bit_stateAt] at hbit
  obtain ⟨q, hq, ⟨hstart, hfinish⟩, heq⟩ := hbit
  have := hs.nonempty p hp
  rcases hs.eq_or_apart hp hq heq with rfl | hlt | hlt <;> omega

/-- The signal changes where a pulse finishes. -/
theorem stateAt_finish_ne (hs : Sound h ps) (hp : p ∈ ps) :
    stateAt ps (p.interval.finish - 1) ≠ stateAt ps p.interval.finish := by
  intro hsame
  have hbit := bit_stateAt_finish hs hp
  have := hs.nonempty p hp
  rw [← hsame, (bit_stateAt ps _ _).2 ⟨p, hp, ⟨by omega, by omega⟩, rfl⟩] at hbit
  cases hbit

/-- A line changes only where a pulse starts or finishes. -/
theorem exists_of_edge {t : Int} {i : Nat} (hne : Bits.bit (stateAt ps (t - 1)) i ≠ Bits.bit (stateAt ps t) i) :
    ∃ p ∈ ps, i = Bits.position p.line ∧ (p.interval.start = t ∨ p.interval.finish = t) := by
  by_cases hbit : Bits.bit (stateAt ps t) i = true
  · obtain ⟨p, hp, hhas, rfl⟩ := (bit_stateAt _ _ _).1 hbit
    refine ⟨p, hp, rfl, .inl ?_⟩
    have hnot : ¬ p.interval.Has (t - 1) := fun h' => hne (by
      rw [hbit]
      exact (bit_stateAt _ _ _).2 ⟨p, hp, h', rfl⟩)
    unfold Interval.Has at hhas hnot
    omega
  · have hbit' : Bits.bit (stateAt ps (t - 1)) i = true := by
      cases hb : Bits.bit (stateAt ps (t - 1)) i
      · rw [hb] at hne
        simp at hbit
        exact absurd hbit.symm hne
      · rfl
    obtain ⟨p, hp, hhas, rfl⟩ := (bit_stateAt _ _ _).1 hbit'
    refine ⟨p, hp, rfl, .inr ?_⟩
    have hnot : ¬ p.interval.Has t := fun h' => hbit ((bit_stateAt _ _ _).2 ⟨p, hp, h', rfl⟩)
    unfold Interval.Has at hhas hnot
    omega

/-- The signal keeps to the lines outside the control register. -/
theorem bit_complement_of_stateAt (hs : Sound h ps) {t : Int} {i : Nat} (hi : Bits.bit (stateAt ps t) i = true) :
    Bits.bit (Register.complement h.register) i = true := by
  obtain ⟨p, hp, -, rfl⟩ := (bit_stateAt _ _ _).1 hi
  exact (hs.onLine p hp).bit_complement

end

end Pulse

end PulseSequencer
