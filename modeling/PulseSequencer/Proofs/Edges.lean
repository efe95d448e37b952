import PulseSequencer.Proofs.ListingOrder

/-!
# The edges of a channel

The windows of a channel can nest, overlap, touch or start together, and stand in any order. Its SETs are those of the
merged intervals: they stand exactly where the line changes, so no two of them share a tick.

* `Interval.MergesTo.covers_start`, `Interval.MergesTo.covers_finish` : merged intervals begin and end where the ticks
  do;
* `Pulse.onto`, `Pulse.stateAt_onto_eq` : intervals as pulses on one line, whose signal only depends on the ticks;
* `Pulse.Traces`, `Pulse.traces_edges` : the SETs of merged intervals trace the signal of the line;
* `Pulse.draw_merged` : and so do those that the channels of a sequence add to a draft.
-/

namespace PulseSequencer

theorem Bits.single_ne_zero (line : Int) : single line ≠ 0 := by
  intro h
  have hbit : bit (single line) (position line) = true := by rw [bit_single, decide_eq_true rfl]
  rw [h, bit_zero] at hbit
  cases hbit

namespace Interval

/-- The tick is in one of the intervals. -/
def Covers (xs : List Interval) (tick : Int) : Prop := ∃ x ∈ xs, x.Has tick

namespace MergesTo

variable {xs ys : List Interval} (h : MergesTo xs ys)

include h

/-- A merged interval starts where the ticks start. -/
theorem covers_start {x : Interval} (hx : x ∈ ys) : Covers xs x.start ∧ ¬ Covers xs (x.start - 1) := by
  have hne := h.nonempty x hx
  refine ⟨(h.ticks _).1 ⟨x, hx, le_refl _, hne⟩, fun hcovers => ?_⟩
  obtain ⟨y, hy, hstart, hfinish⟩ := (h.ticks _).2 hcovers
  rcases eq_or_of_pairwise h.apart hx hy with rfl | hlt | hlt <;> omega

/-- A merged interval finishes where the ticks finish. -/
theorem covers_finish {x : Interval} (hx : x ∈ ys) : Covers xs (x.finish - 1) ∧ ¬ Covers xs x.finish := by
  have hne := h.nonempty x hx
  refine ⟨(h.ticks _).1 ⟨x, hx, by omega, by omega⟩, fun hcovers => ?_⟩
  obtain ⟨y, hy, hstart, hfinish⟩ := (h.ticks _).2 hcovers
  rcases eq_or_of_pairwise h.apart hx hy with rfl | hlt | hlt <;> omega

end MergesTo

end Interval

namespace Pulse

/-- The intervals as pulses on one line. -/
def onto (line : Int) (xs : List Interval) : List Pulse := xs.map fun x => ⟨x, line⟩

variable {line tick : Int} {xs ys : List Interval}

/-! ## The signal of a line -/

theorem stateAt_eq {ps : List Pulse} {value : Int} (hvalue : (Bits.bits value).toInt = value)
    (h : ∀ i, Bits.bit (stateAt ps tick) i = Bits.bit value i) : stateAt ps tick = value := by
  have hstate : (Bits.bits (stateAt ps tick)).toInt = stateAt ps tick := Bits.toInt_bits_foldl_or Pulse.line _ rfl
  rw [← hstate, Bits.bits_eq_iff.2 h, hvalue]

theorem bit_stateAt_onto (i : Nat) : Bits.bit (stateAt (onto line xs) tick) i = true ↔
    Interval.Covers xs tick ∧ i = Bits.position line := by
  simp only [bit_stateAt, onto, List.mem_map, exists_exists_and_eq_and, Interval.Covers]
  simp only [← and_assoc, exists_and_right]

/-- A line is high at the ticks of its pulses. -/
theorem stateAt_onto_of_covers (h : Interval.Covers xs tick) : stateAt (onto line xs) tick = Bits.single line := by
  refine stateAt_eq (congrArg BitVec.toInt (Bits.bits_single line)) fun i => Bool.eq_iff_iff.2 ?_
  rw [bit_stateAt_onto, Bits.bit_single, decide_eq_true_eq, and_iff_right h]

theorem stateAt_onto_of_not_covers (h : ¬ Interval.Covers xs tick) : stateAt (onto line xs) tick = 0 := by
  refine stateAt_eq rfl fun i => Bool.eq_iff_iff.2 ?_
  rw [bit_stateAt_onto, Bits.bit_zero]
  exact ⟨fun hi => absurd hi.1 h, fun hi => absurd hi Bool.false_ne_true⟩

theorem stateAt_onto_eq (h : Interval.Covers xs tick ↔ Interval.Covers ys tick) :
    stateAt (onto line xs) tick = stateAt (onto line ys) tick := by
  by_cases hx : Interval.Covers xs tick
  · rw [stateAt_onto_of_covers hx, stateAt_onto_of_covers (h.1 hx)]
  · rw [stateAt_onto_of_not_covers hx, stateAt_onto_of_not_covers fun hy => hx (h.2 hy)]

/-! ## SETs of a line -/

/-- SETs one after the other, each of them for one line: they stand at the ticks where the signal changes, and write the
signal there. -/
structure Traces (line : Int) (signal : Int → Int) (is : List Instruction) : Prop where
  ordered : is.Pairwise fun i j => i.time < j.time
  writes : ∀ i ∈ is, i = ⟨i.time, none, none, [], .set ⟨signal i.time, Bits.single line, 0, false⟩⟩
  edges : ∀ tick, (∃ i ∈ is, i.time = tick) ↔ signal (tick - 1) ≠ signal tick

/-- The SETs of pulses. -/
def edges (ps : List Pulse) : List Instruction := ps.flatMap fun p => [p.rise, p.fall]

theorem mem_edges {ps : List Pulse} {i : Instruction} : i ∈ edges ps ↔ ∃ p ∈ ps, i = p.rise ∨ i = p.fall := by
  simp only [edges, List.mem_flatMap, List.mem_cons, List.not_mem_nil, or_false]

/-- The SETs of merged intervals come one after the other. -/
theorem pairwise_edges (h : Interval.MergesTo xs ys) (line : Int) :
    (edges (onto line ys)).Pairwise fun i j => i.time < j.time := by
  refine List.pairwise_flatMap.2 ⟨fun p hp => ?_, List.pairwise_map.2 (h.apart.imp_of_mem fun {x y} hx hy hlt => ?_)⟩
  · obtain ⟨x, hx, rfl⟩ := List.mem_map.1 hp
    exact List.pairwise_pair.2 (h.nonempty x hx)
  · have hx := h.nonempty x hx
    have hy := h.nonempty y hy
    simp only [List.mem_cons, List.not_mem_nil, or_false, forall_eq_or_imp, forall_eq, rise, fall]
    omega

/-- A change of a signal is a change of a bit, so it is where a pulse starts or finishes. -/
theorem exists_edge {ps : List Pulse} (hne : stateAt ps (tick - 1) ≠ stateAt ps tick) :
    ∃ i ∈ edges ps, i.time = tick := by
  obtain ⟨i, hi⟩ : ∃ i, Bits.bit (stateAt ps (tick - 1)) i ≠ Bits.bit (stateAt ps tick) i := by
    by_contra hsame
    exact hne (stateAt_eq (Bits.toInt_bits_foldl_or Pulse.line _ rfl) fun i => not_not.1 fun hi => hsame ⟨i, hi⟩)
  obtain ⟨p, hp, -, htime | htime⟩ := exists_of_edge hi
  · exact ⟨p.rise, mem_edges.2 ⟨p, hp, .inl rfl⟩, htime⟩
  · exact ⟨p.fall, mem_edges.2 ⟨p, hp, .inr rfl⟩, htime⟩

theorem traces_edges (h : Interval.MergesTo xs ys) (line : Int) :
    Traces line (stateAt (onto line xs)) (edges (onto line ys)) := by
  refine ⟨pairwise_edges h line, fun i hi => ?_, fun tick => ⟨?_, fun hne => ?_⟩⟩
  · obtain ⟨p, hp, hi⟩ := mem_edges.1 hi
    obtain ⟨x, hx, rfl⟩ := List.mem_map.1 hp
    rcases hi with rfl | rfl
    · simp only [rise, stateAt_onto_of_covers (h.covers_start hx).1]
    · simp only [fall, stateAt_onto_of_not_covers (h.covers_finish hx).2]
  · rintro ⟨i, hi, rfl⟩
    obtain ⟨p, hp, hi⟩ := mem_edges.1 hi
    obtain ⟨x, hx, rfl⟩ := List.mem_map.1 hp
    rcases hi with rfl | rfl
    · obtain ⟨hafter, hbefore⟩ := h.covers_start hx
      simp only [rise, stateAt_onto_of_covers hafter, stateAt_onto_of_not_covers hbefore]
      exact (Bits.single_ne_zero line).symm
    · obtain ⟨hbefore, hafter⟩ := h.covers_finish hx
      simp only [fall, stateAt_onto_of_covers hbefore, stateAt_onto_of_not_covers hafter]
      exact Bits.single_ne_zero line
  · -- merged intervals have the same signal
    rw [← stateAt_onto_eq (h.ticks _), ← stateAt_onto_eq (h.ticks _)] at hne
    exact exists_edge hne

/-! ## SETs of channels -/

/-- The SETs of a channel trace the signal of its windows, as they are listed; a channel without a line has none. -/
def TracesChannel (t : Timeline) (terminator : Int) (c : Channel) (is : List Instruction) : Prop :=
  (lineOf t.sequence.hardware c = .ok none ∧ is = []) ∨
    ∃ line intervals, lineOf t.sequence.hardware c = .ok (some line) ∧
      (c.windows.mapM (intervalOf t terminator)).outcome = .ok intervals ∧
      Traces line (stateAt (onto line intervals.flatten)) is

theorem tracesChannel_edges {t : Timeline} {terminator : Int} {c : Channel} {ps : List Pulse}
    (h : (ofChannel t terminator c).outcome = .ok ps) : TracesChannel t terminator c (edges ps) := by
  rcases ofChannel_eq_ok.1 h with ⟨hline, rfl⟩ | ⟨line, intervals, hline, hintervals, rfl⟩
  · exact .inl ⟨hline, rfl⟩
  · exact .inr ⟨line, intervals, hline, hintervals, traces_edges (mergesTo_of_mapM hintervals) line⟩

theorem edges_flatten (pss : List (List Pulse)) : edges pss.flatten = (pss.map edges).flatten := by
  simp only [edges, List.flatMap_def, List.map_flatten, List.flatten_flatten, List.map_map]
  rfl

/-- Merging keeps the ticks of the intervals and leaves gaps between them, so the signal of the line is the same.
Drawing the pulses of the channels adds for each of them SETs that trace this signal, no two of them at one tick. -/
theorem draw_merged :
    (∀ xs : List Interval, (∀ x ∈ xs, x.start < x.finish) → Interval.MergesTo xs (Interval.merge xs) ∧
      ∀ line tick, stateAt (onto line (Interval.merge xs)) tick = stateAt (onto line xs) tick) ∧
    ∀ (t : Timeline) (terminator : Int) (cs : List Channel) (pss : List (List Pulse)),
      (cs.mapM (ofChannel t terminator)).outcome = .ok pss → ∀ d : Draft, (∀ l ∈ d.list, l < d.board.size) →
        ∃ d' iss, pss.flatten.foldlM draw d = .ok d' ∧ d'.cells = d.cells ++ iss.flatten ∧
          List.Forall₂ (TracesChannel t terminator) cs iss := by
  refine ⟨fun xs hxs => ?_, fun t terminator cs pss hpss d hd => ?_⟩
  · have hmerges := Interval.mergesTo_merge hxs
    exact ⟨hmerges, fun line tick => stateAt_onto_eq (hmerges.ticks tick)⟩
  · refine ⟨d.draw pss.flatten, pss.map edges, foldlM_draw _ _, ?_, ?_⟩
    · rw [Draft.cells_draw hd, ← edges_flatten, edges]
    · exact List.forall₂_map_right_iff.2 ((Attempt.mapM_eq_ok.1 hpss).imp fun _ _ => tracesChannel_edges)

end Pulse

/-- Windows that nest, touch, overlap and start together, not in order. -/
def Bench.crowded : Timeline := ⟨{ gated with
  channels := [
    ⟨"laser", [⟨"late", .absolute 26, .absolute 30⟩, ⟨"inner", .absolute 16, .absolute 18⟩,
      ⟨"next", .absolute 20, .absolute 24⟩, ⟨"early", .absolute 14, .absolute 20⟩,
      ⟨"again", .absolute 26, .absolute 28⟩], .output⟩,
    ⟨"detector", [⟨"gate", .absolute 3, .absolute 5⟩], .control []⟩] }, []⟩

theorem Bench.draw_crowded :
    Interval.merge [⟨26, 30⟩, ⟨16, 18⟩, ⟨20, 24⟩, ⟨14, 20⟩, ⟨26, 28⟩] = [⟨14, 24⟩, ⟨26, 30⟩] ∧
    Interval.MergesTo [⟨26, 30⟩, ⟨16, 18⟩, ⟨20, 24⟩, ⟨14, 20⟩, ⟨26, 28⟩] [⟨14, 24⟩, ⟨26, 30⟩] ∧
    ∃ d' iss, [(⟨⟨14, 24⟩, 0⟩ : Pulse), ⟨⟨26, 30⟩, 0⟩, ⟨⟨3, 5⟩, 1⟩].foldlM Pulse.draw default = .ok d' ∧
      d'.cells = iss.flatten ∧ List.Forall₂ (Pulse.TracesChannel crowded 39) crowded.sequence.channels iss := by
  have hmerge : Interval.merge [⟨26, 30⟩, ⟨16, 18⟩, ⟨20, 24⟩, ⟨14, 20⟩, ⟨26, 28⟩] = [⟨14, 24⟩, ⟨26, 30⟩] := by decide
  obtain ⟨hmerges, hdraw⟩ := Pulse.draw_merged
  refine ⟨hmerge, hmerge ▸ (hmerges _ (by decide)).1, ?_⟩
  have hpss : (crowded.sequence.channels.mapM (Pulse.ofChannel crowded 39)).outcome =
      .ok [[⟨⟨14, 24⟩, 0⟩, ⟨⟨26, 30⟩, 0⟩], [⟨⟨3, 5⟩, 1⟩]] := by decide +kernel
  exact hdraw _ _ _ _ hpss default (by decide)

end PulseSequencer
