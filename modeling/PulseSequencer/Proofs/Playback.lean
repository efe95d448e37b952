import PulseSequencer.Proofs.Settled
import PulseSequencer.Proofs.Static

/-!
# Sequences without jumps, from their windows to the bus

* `Timeline.Acts`, `Timeline.NeedsWait` : the ticks at which a program has to act, and the WAITs between them;
* `Layout.Static.exists_tick_iff` : the instructions of a static layout stand at these ticks;
* `Layout.Static.encode_iff` : they can be encoded if the WAITs between them fit;
* `Layout.Static.playing`, `Layout.Static.walk_ends` : the walk along them shows the levels of every tick, and ends;
* `Sequence.plays_levels` : compilation fails for two reasons only, and otherwise the program shows the windows.
-/

namespace PulseSequencer

namespace Timeline

/-- The ticks at which a program has to act: the first, the last, and those at which the levels change. -/
def Acts (t : Timeline) (length tick : Int) : Prop :=
  tick = 0 ∨ tick = length - 1 ∨ t.levels length (tick - 1) ≠ t.levels length tick

/-- Between two successive ticks of these, a WAIT of `n` ticks is needed. -/
def NeedsWait (t : Timeline) (length n : Int) : Prop :=
  1 ≤ n ∧ ∃ a, t.Acts length a ∧ t.Acts length (a + n + 2) ∧ 0 ≤ a ∧ a + n + 2 < length ∧
    ∀ c, a < c → c < a + n + 2 → ¬ t.Acts length c

end Timeline

/-- Runs that go on for `length` ticks, end, and show the levels of every tick on the bus. -/
structure Machine.Plays (m : Machine) (idle length polarity : Int) (levels : Int → Int) : Prop where
  ended : ∃ st, m.run (.initial idle) = .ok st ∧ st.halted = some .ended ∧ (st.tick : Int) = length
  bus : ∀ tick : Nat, tick < length → ∃ st, m.runFor (tick + 1) (.initial idle) = .ok st ∧ st.tick = tick + 1 ∧
    st.bus = Bits.xor polarity (levels tick)

namespace Layout

variable [Collation] {s : Sequence} {variant : Binary64} {o : Options} {k : Layout s variant o}

theorem signal_eq_levels (k : Layout s variant o) (tick : Int) : k.signal tick = k.timeline.levels k.length tick :=
  Pulse.stateAt_eq_levels k.pulses_eq tick

theorem mem_sets_settled (k : Layout s variant o) {l : Label} : l ∈ k.settled.sets ↔ l ∈ k.ledger.sets := by
  obtain ⟨-, hred, -⟩ := k.settled_spec
  rw [Draft.mem_sets, Draft.mem_sets, k.perm_settled.mem_iff, hred.sameLinks.isSet, k.placement.retimed.isSet_eq]

/-- A change of the signal shows on some line. -/
theorem exists_edge (k : Layout s variant o) {tick : Int} (h : k.signal (tick - 1) ≠ k.signal tick) :
    ∃ i, Bits.bit k.lines i = true ∧ Bits.bit (k.signal (tick - 1)) i ≠ Bits.bit (k.signal tick) i := by
  have hcanonical : ∀ t, (Bits.bits (k.signal t)).toInt = k.signal t := fun t =>
    Bits.toInt_bits_foldl_or Pulse.line _ rfl
  by_contra hno
  refine h ?_
  have hbits : Bits.bits (k.signal (tick - 1)) = Bits.bits (k.signal tick) := Bits.bits_eq_iff.2 fun i => by
    by_contra hne
    refine hno ⟨i, ?_, hne⟩
    -- a line that is high at one of the two ticks is no line of the control register
    have hlines : ∀ t, Bits.bit (k.signal t) i = true → Bits.bit k.lines i = true := fun t ht => by
      rw [Opening.lines, k.register_eq]
      exact Pulse.bit_complement_of_stateAt k.sound ht
    cases hbit : Bits.bit (k.signal tick) i with
    | true => exact hlines tick hbit
    | false =>
      refine hlines (tick - 1) ?_
      rw [hbit] at hne
      exact Bool.eq_true_of_not_eq_false hne
  rw [← hcanonical (tick - 1), hbits, hcanonical]

namespace Static

variable (hk : k.Static)

include hk

/-- SETs stand at tick 0 and where the signal changes. -/
theorem exists_set_iff (tick : Int) :
    (∃ l ∈ k.settled.sets, k.settled.board.time l = tick) ↔ tick = 0 ∨ k.signal (tick - 1) ≠ k.signal tick := by
  have hledger : (∃ l ∈ k.ledger.sets, k.ledger.board.time l = tick) →
      ∃ l ∈ k.settled.sets, k.settled.board.time l = tick := fun ⟨l, hl, htime⟩ =>
    ⟨l, k.mem_sets_settled.2 hl, (hk.time l).trans htime⟩
  constructor
  · rintro ⟨l, hl, rfl⟩
    exact (hk.plain.sets l hl).change
  · rintro (rfl | hne)
    · exact hledger k.exists_start_ledger
    · obtain ⟨i, hi, hedge⟩ := k.exists_edge hne
      obtain ⟨l, ⟨hl, -⟩, htime, -⟩ := k.outlines_emitted.edges tick i hi hedge
      obtain ⟨hmem, hset⟩ := Draft.mem_sets.1 hl
      refine hledger ⟨_, Draft.mem_sets.2 ⟨k.descends.mem l hmem, ?_⟩, ?_⟩
      · rw [k.descends.isSet l hmem, hset]
      · rw [k.descends.time l hmem, htime]

theorem time_final : k.settled.board.time 0 = k.length - 1 := congrArg Instruction.time hk.plain.ending

/-- The instructions stand where the program has to act. -/
theorem exists_tick_iff (tick : Int) :
    (∃ l ∈ k.settled.list, k.settled.board.time l = tick) ↔ k.timeline.Acts k.length tick := by
  unfold Timeline.Acts
  rw [← k.signal_eq_levels, ← k.signal_eq_levels]
  constructor
  · rintro ⟨l, hl, rfl⟩
    cases hset : (k.settled.board.get l).isSet with
    | true =>
      rcases (hk.exists_set_iff _).1 ⟨l, Draft.mem_sets.2 ⟨hl, hset⟩, rfl⟩ with hzero | hne
      · exact .inl hzero
      · exact .inr (.inr hne)
    | false =>
      rw [hk.plain.other l hl hset]
      exact .inr (.inl hk.time_final)
  · rintro (hzero | rfl | hne)
    · obtain ⟨l, hl, htime⟩ := (hk.exists_set_iff tick).2 (.inl hzero)
      exact ⟨l, (Draft.mem_sets.1 hl).1, htime⟩
    · exact ⟨0, hk.plain.final, hk.time_final⟩
    · obtain ⟨l, hl, htime⟩ := (hk.exists_set_iff tick).2 (.inr hne)
      exact ⟨l, (Draft.mem_sets.1 hl).1, htime⟩

/-- Every SET shows the signal of its tick. -/
theorem bits_value {l : Label} (hl : l ∈ k.settled.sets) :
    Bits.bits (k.settled.board.get l).drive.value = Bits.bits (k.signal (k.settled.board.time l)) := by
  obtain ⟨-, -, hcarries⟩ := k.settled_spec
  refine Bits.bits_eq_iff.2 fun i => ?_
  cases hi : Bits.bit k.lines i with
  | true => rw [(hcarries l hl i hi).2, hk.time]
  | false =>
    have hvalue : Bits.bit (k.settled.board.get l).drive.value i ≠ true := fun hset => by
      rw [(hk.plain.sets l hl).within i hset] at hi
      cases hi
    have hsignal : Bits.bit (k.signal (k.settled.board.time l)) i ≠ true := fun hset => by
      rw [Opening.lines, k.register_eq, Pulse.bit_complement_of_stateAt k.sound hset] at hi
      cases hi
    rw [Bool.eq_false_iff.2 hvalue, Bool.eq_false_iff.2 hsignal]

/-! ### Words -/

theorem cases_settled {l : Label} (hl : l ∈ k.settled.list) :
    (l ∈ k.settled.sets ∧ k.settled.board.time l < k.length - 1) ∨
      (k.settled.board.time l = k.length - 1 ∧ (k.settled.board.get l).action = .stop) := by
  cases hset : (k.settled.board.get l).isSet with
  | true =>
    have hmem := Draft.mem_sets.2 ⟨hl, hset⟩
    exact .inl ⟨hmem, (hk.plain.sets l hmem).lt⟩
  | false =>
    rw [hk.plain.other l hl hset]
    exact .inr ⟨hk.time_final, congrArg Instruction.action hk.plain.ending⟩

/-- Gaps that take a WAIT lie between ticks at which the program acts. -/
theorem gap_iff {n : Int} (hn : 1 ≤ n) :
    (∃ a, [a, a + n + 2] <:+: -1 :: k.settled.list.map k.final.board.time) ↔ k.timeline.NeedsWait k.length n := by
  have htimes : k.settled.list.map k.final.board.time = k.settled.list.map k.settled.board.time :=
    List.map_congr_left fun l hl => congrArg Instruction.time (k.get_final hl)
  have hmem : ∀ tick, tick ∈ k.settled.list.map k.settled.board.time ↔ k.timeline.Acts k.length tick := fun tick => by
    rw [List.mem_map, hk.exists_tick_iff]
  have hrange : ∀ tick, k.timeline.Acts k.length tick → 0 ≤ tick ∧ tick < k.length := fun tick hacts => by
    obtain ⟨l, hl, rfl⟩ := (hk.exists_tick_iff tick).2 hacts
    exact k.range_settled hl
  have hzero : k.timeline.Acts k.length 0 := .inl rfl
  have hinc : (-1 :: k.settled.list.map k.settled.board.time).Pairwise (· < ·) := by
    refine List.pairwise_cons.2 ⟨fun tick htick => ?_, List.pairwise_map.2 k.increasing_settled⟩
    have := hrange tick ((hmem tick).1 htick)
    omega
  rw [htimes]
  simp only [Draft.pair_infix_iff hinc, List.mem_cons, hmem]
  constructor
  · rintro ⟨a, ha, hc, -, hnone⟩
    have hc' : k.timeline.Acts k.length (a + n + 2) := by
      rcases hc with hc | hc
      · rcases ha with ha | ha
        · omega
        · have := hrange a ha
          omega
      · exact hc
    have ha' : k.timeline.Acts k.length a := by
      rcases ha with rfl | ha
      · -- the first instruction stands at tick 0, which leaves no room before it
        exact absurd ⟨by omega, by omega⟩ (hnone 0 (.inr hzero))
      · exact ha
    exact ⟨hn, a, ha', hc', (hrange a ha').1, (hrange _ hc').2, fun c h1 h2 hacts => hnone c (.inr hacts) ⟨h1, h2⟩⟩
  · rintro ⟨-, a, ha, hc, hnonneg, -, hnone⟩
    refine ⟨a, .inr ha, .inr hc, by omega, ?_⟩
    rintro c (rfl | hacts) ⟨h1, h2⟩
    · omega
    · exact hnone c h1 h2 hacts

/-- All values fit the bus. -/
theorem unsigned_lt {x : Label} (hx : x ∈ k.final.list) (hset : (k.final.board.get x).isSet = true) :
    Bits.unsigned (Bits.xor (k.final.board.get x).drive.value s.hardware.polarityMask) < Word.busLimit := by
  have hchecked := (Sequence.verified_of_verify k.verified).hardware
  refine k.covers_final.2.drive_of_filled
    (P := fun value => Bits.unsigned (Bits.xor value s.hardware.polarityMask) < Word.busLimit)
    (by simp) (fun l hl hlset => ?_) x hx hset
  rw [k.get_final hl] at hlset ⊢
  change _ < 2 ^ Hardware.outputLimit
  rw [Bits.unsigned_lt_iff]
  intro i hi
  rw [Bits.bit_xor, Hardware.bit_polarityMask_of_le hchecked hi, Bool.xor_false, ← Bool.not_eq_true]
  intro hbit
  have hline := (hk.plain.sets l (Draft.mem_sets.2 ⟨hl, hlset⟩)).within i hbit
  rw [Opening.lines, Register.bit_complement, decide_eq_false (Nat.not_lt.2 hi)] at hline
  cases hline

/-- Apart from WAITs, everything in the list is encodable. -/
theorem encodable_or_wait {x : Label} (hx : x ∈ k.final.list) :
    k.final.Encodable s.hardware.polarityMask x ∨ ∃ duration, (k.final.board.get x).action = .wait duration := by
  cases hset : (k.final.board.get x).isSet with
  | true =>
    obtain ⟨e, he⟩ := Instruction.isSet_iff.1 hset
    have hlt := hk.unsigned_lt hx hset
    refine .inl ?_
    rw [Instruction.drive, he] at hlt
    simpa only [Draft.Encodable, he] using hlt
  | false =>
    rcases k.covers_final.2.mem_or_filler x hx with hmem | hset' | hwait
    · rw [k.get_final hmem] at hset
      rcases hk.cases_settled hmem with ⟨hsets, -⟩ | ⟨-, hstop⟩
      · rw [(Draft.mem_sets.1 hsets).2] at hset
        cases hset
      · left
        rw [← k.get_final hmem] at hstop
        simp only [Draft.Encodable, hstop]
    · rw [hset] at hset'
      cases hset'
    · exact .inr hwait

theorem encode_iff : (∃ words, k.addressed.encode = .ok words) ↔
    ∀ n, k.timeline.NeedsWait k.length n → n < Word.durationLimit := by
  constructor
  · rintro ⟨words, hwords⟩ n hneeds
    obtain ⟨a, hgap⟩ := (hk.gap_iff hneeds.1).2 hneeds
    obtain ⟨x, hx, hact⟩ := k.covers_final.2.wait_of_gap hneeds.1 hgap
    have henc := encodable_of_encode hwords hx
    simp only [Draft.Encodable, hact, Binary64.duration_iff (show 0 ≤ n by have := hneeds.1; omega)] at henc
    exact henc.2
  · intro hneeds
    refine ⟨_, (k.addressed_final.encode_eq_ok k.scheduled_final).2 ⟨fun x hx => ?_, rfl⟩⟩
    rcases hk.encodable_or_wait hx with henc | ⟨duration, hwait⟩
    · exact henc
    · have hno : ∀ l ∈ k.settled.list, ∀ d, (k.final.board.get l).action ≠ .wait d := fun l hl d => by
        rw [k.get_final hl]
        exact k.timed.noWait l hl d
      obtain ⟨a, n, hn, rfl, hgap⟩ := k.covers_final.2.gap_of_wait hno x hx duration hwait
      have hlt := hneeds n ((hk.gap_iff hn).1 ⟨a, hgap⟩)
      simp only [Draft.Encodable, hwait, Binary64.duration_iff (show 0 ≤ n by omega)]
      exact ⟨hn, hlt⟩

/-- Where a word does not fit, the fault says so. -/
theorem kind_of_encode_error {f : Fault} (h : k.addressed.encode = .error f) : f.kind = .fieldOverflow := by
  obtain ⟨x, hx, hop⟩ := Draft.exists_of_encode_error h
  rw [k.addressed_final.list] at hx
  rcases hk.encodable_or_wait hx with henc | ⟨duration, hwait⟩
  · rw [(k.addressed_final.operation_eq_ok hx (k.scheduled_final.closed x hx)).2 ⟨henc, rfl⟩] at hop
    cases hop
  · have hact := k.addressed_final.action_of_not_isSet hx (by rw [Instruction.isSet, hwait])
    simp only [Board.operation, hact, hwait] at hop
    split at hop
    · cases hop
    · cases hop
      rfl

/-! ### Runs -/

/-- The walk after `n` ticks, none of them the last: the levels of the tick before are on the bus. -/
def Playing (k : Layout s variant o) (idle : Int) (n : Nat) (w : Walk) : Prop :=
  ∃ bus, w = ⟨n, bus, n, 0, none⟩ ∧
    bus = if n = 0 then idle else Bits.xor s.hardware.polarityMask (k.timeline.levels k.length (n - 1))

variable {counts : Nat → Nat → Int} {maxJumps maxTicks : Nat} {idle : Int}

/-- A SET brings the levels of its tick, and where there is none they stay. -/
theorem playing_step (hmax : k.length ≤ maxTicks) {n : Nat} (hn : (n : Int) < k.length - 1) {w : Walk}
    (hw : Playing k idle n w) :
    Playing k idle (n + 1) (k.settled.walkStep s.hardware.polarityMask counts maxJumps maxTicks w) := by
  obtain ⟨bus, rfl, hbus⟩ := hw
  refine ⟨Bits.xor s.hardware.polarityMask (k.timeline.levels k.length n), ?_, ?_⟩
  swap
  · rw [if_neg (Nat.succ_ne_zero n), Nat.cast_add, Nat.cast_one, add_sub_cancel_right]
  unfold Draft.walkStep
  extract_lets next
  have hlimit : ¬ maxTicks ≤ n := by omega
  rw [if_neg (by simp), if_neg hlimit]
  by_cases hat : ∃ l ∈ k.settled.list, k.settled.board.time l = n
  · obtain ⟨l, hl, htime⟩ := hat
    have hat? : k.settled.at? n = some l := by rw [← htime, k.timed.at?_time hl]
    rcases hk.cases_settled hl with ⟨hsets, -⟩ | ⟨hlast, -⟩
    · obtain ⟨e, he⟩ := Instruction.isSet_iff.1 (Draft.mem_sets.1 hsets).2
      have hbits := hk.bits_value hsets
      rw [Instruction.drive, he, htime, k.signal_eq_levels] at hbits
      simp only [hat?, Option.map_some, he, next, Walk.mk.injEq, and_true]
      refine ⟨by omega, ?_⟩
      rw [Bits.xor, Bits.xor, BitVec.xor_comm, hbits]
    · omega
  · have hidle : ¬ k.timeline.Acts k.length n := fun hacts => hat ((hk.exists_tick_iff n).2 hacts)
    have hat? : k.settled.at? n = none := Draft.Timed.at?_eq_none fun l hl htime => hat ⟨l, hl, htime⟩
    unfold Timeline.Acts at hidle
    rw [not_or, not_or, not_not] at hidle
    have hpos : n ≠ 0 := by omega
    rw [if_neg hpos] at hbus
    simp only [hat?, Option.map_none, next, Walk.mk.injEq, and_true]
    refine ⟨by omega, ?_⟩
    rw [hbus, hidle.2.2]

theorem playing (hmax : k.length ≤ maxTicks) {n : Nat} (hn : (n : Int) < k.length) :
    Playing k idle n ((k.settled.walkStep s.hardware.polarityMask counts maxJumps maxTicks)^[n] (.initial idle)) := by
  induction n with
  | zero => exact ⟨idle, rfl, rfl⟩
  | succ n ih =>
    rw [Function.iterate_succ_apply']
    rw [Nat.cast_add, Nat.cast_one] at hn
    exact hk.playing_step hmax (by omega) (ih (by omega))

/-- At the last tick the walk ends. All windows are closed by then. -/
theorem walk_ends (hmax : k.length ≤ maxTicks) {n : Nat} (hn : (n : Int) = k.length - 1) {w : Walk}
    (hw : Playing k idle n w) :
    k.settled.walkStep s.hardware.polarityMask counts maxJumps maxTicks w =
      ⟨n + 1, Bits.xor s.hardware.polarityMask (k.timeline.levels k.length n), n + 1, 0, some .ended⟩ := by
  obtain ⟨bus, rfl, hbus⟩ := hw
  have htwo := k.two_le
  rw [if_neg (by omega), Timeline.levels_eq_zero (by omega)] at hbus
  have hat? : k.settled.at? n = some 0 := by rw [hn, ← hk.time_final, k.timed.at?_time hk.plain.final]
  have hstop : (k.settled.board.get 0).action = .stop := congrArg Instruction.action hk.plain.ending
  unfold Draft.walkStep
  extract_lets next
  have hlimit : ¬ maxTicks ≤ n := by omega
  rw [if_neg (by simp), if_neg hlimit, Timeline.levels_eq_zero (by omega)]
  simp only [hat?, Option.map_some, hstop, next, hbus]

/-- The words play the levels of the windows. -/
theorem plays {words : List Word} (h : k.addressed.encode = .ok words) {m : Machine} (hm : m.words = words.toArray)
    (hmax : k.length ≤ m.maxTicks) (idle : Int) :
    m.Plays idle k.length s.hardware.polarityMask (k.timeline.levels k.length) := by
  have hreal := Layout.realizes h
  have htwo := k.two_le
  obtain ⟨n, hn⟩ : ∃ n : Nat, (n : Int) = k.length - 1 := ⟨(k.length - 1).toNat, by omega⟩
  let step := k.settled.walkStep s.hardware.polarityMask m.counts m.maxJumps m.maxTicks
  have hend : step^[n + 1] (.initial idle) =
      ⟨n + 1, Bits.xor s.hardware.polarityMask (k.timeline.levels k.length n), n + 1, 0, some .ended⟩ := by
    rw [Function.iterate_succ_apply']
    exact hk.walk_ends hmax hn (hk.playing hmax (by omega))
  refine ⟨?_, fun tick htick => ?_⟩
  · -- all further ticks of the run leave the walk as it is
    have hrest : step^[m.maxTicks - 0 + 1] (.initial idle) = step^[n + 1] (.initial idle) := by
      obtain ⟨rest, hrest⟩ := Nat.exists_eq_add_of_le (show n + 1 ≤ m.maxTicks - 0 + 1 by omega)
      rw [hrest, Nat.add_comm, Function.iterate_add_apply, hend,
        Function.iterate_fixed (Draft.walkStep_of_halted (by simp))]
    obtain ⟨st, hrun, hag⟩ := hreal.runFor_agrees hm (m.maxTicks - 0 + 1) (hreal.agrees_initial idle)
    have hhalted := hag.halted
    have hticks := hag.tick
    change st.halted = (step^[m.maxTicks - 0 + 1] (.initial idle)).halted at hhalted
    change st.tick = (step^[m.maxTicks - 0 + 1] (.initial idle)).tick at hticks
    rw [hrest, hend] at hhalted hticks
    refine ⟨st, hrun, hhalted, ?_⟩
    change st.tick = n + 1 at hticks
    omega
  · obtain ⟨st, hrun, hag⟩ := hreal.runFor_agrees hm (tick + 1) (hreal.agrees_initial idle)
    refine ⟨st, hrun, ?_⟩
    rw [hag.tick, hag.bus]
    change (step^[tick + 1] (.initial idle)).tick = tick + 1 ∧ (step^[tick + 1] (.initial idle)).bus = _
    by_cases hlast : tick = n
    · rw [hlast, hend]
      exact ⟨rfl, rfl⟩
    · obtain ⟨bus, hw, hbus⟩ : Playing k idle (tick + 1) (step^[tick + 1] (.initial idle)) := hk.playing hmax (by omega)
      rw [hw, hbus,
        if_neg (Nat.succ_ne_zero tick), Nat.cast_add, Nat.cast_one, add_sub_cancel_right]
      exact ⟨rfl, rfl⟩

end Static

end Layout

/-- What becomes of a sequence that is `length` ticks long: it is too short, a WAIT that it needs does not fit, or its
words play the levels on every machine with enough ticks. -/
inductive Sequence.Outcome (s : Sequence) (t : Timeline) (length : Int) (outcome : Except Failure Compiled) : Prop
  | tooShort (f : Fault) (hlength : length < 2) (hkind : f.kind = .sequenceTooShort) (h : outcome = .error (.fault f))
  | overflow (f : Fault) (hlength : 2 ≤ length) (hwait : ∃ n, t.NeedsWait length n ∧ 2 ^ 30 - 1 < n)
      (hkind : f.kind = .fieldOverflow) (h : outcome = .error (.fault f))
  | plays (c : Compiled) (hlength : 2 ≤ length) (hwait : ∀ n, t.NeedsWait length n → n ≤ 2 ^ 30 - 1)
      (h : outcome = .ok c)
      (hplays : ∀ (m : Machine) (idle : Int), m.words = c.words.toArray → length ≤ m.maxTicks →
        m.Plays idle length s.hardware.polarityMask (t.levels length))

/-- A verified sequence without jumps plays its windows, if it is long enough and its WAITs fit. -/
theorem Sequence.plays_levels [Collation] {s : Sequence} (hverify : s.verify.outcome = .ok ())
    (hjumps : s.hasJumps = false) {v : Nat} (hv : .ofNat v < s.variants) (o : Options) :
    ∃ t length, Timeline.ofVariant s (.ofNat v) = .ok t ∧ (ticks t o).outcome = .ok length ∧
      (length < 2 ^ 32 → s.Outcome t length (s.compile (.ofNat v) o).outcome) := by
  have hs := verified_of_verify hverify
  have hvariant := hs.variant_ok hv
  obtain ⟨t, ht, hseq, hresolves⟩ := resolves_of_checkTiming (hs.checkTiming hv)
  obtain ⟨length, hlength⟩ := exists_ticks o hresolves (jumps_eq_nil_of_hasJumps (hseq ▸ hjumps))
  refine ⟨t, length, ht, hlength, fun hmax => ?_⟩
  by_cases htwo : length < 2
  · have hassemble : (s.compile (.ofNat v) o).outcome = (s.assemble (.ofNat v) o).outcome :=
      Attempt.outcome_bind_of_ok hverify
    rw [assemble, if_neg (by rw [hvariant]; exact Bool.false_ne_true),
      Attempt.outcome_bind_of_ok (Attempt.outcome_ofExcept_ok ht), Attempt.outcome_bind_of_ok hlength,
      if_pos htwo] at hassemble
    exact .tooShort ⟨.sequenceTooShort, _, _⟩ htwo rfl hassemble
  · obtain ⟨k, rfl, rfl, hk⟩ := Layout.exists_static (o := o) hverify hjumps hvariant ht hseq hresolves hlength
      (not_lt.1 htwo) (by unfold TickLine.maxLength; omega)
    have hcompile := k.outcome_compile
    have hencode := hk.encode_iff
    unfold Word.durationLimit at hencode
    cases hwords : k.addressed.encode with
    | ok words =>
      rw [Attempt.outcome_ofExcept_ok hwords] at hcompile
      refine .plays (k.compiled words) (not_lt.1 htwo) (fun n hn => ?_) hcompile fun m idle hm hticks =>
        hk.plays hwords hm hticks idle
      have := hencode.1 ⟨words, hwords⟩ n hn
      omega
    | error f =>
      rw [Attempt.outcome_ofExcept_error hwords] at hcompile
      refine .overflow f (not_lt.1 htwo) ?_ (hk.kind_of_encode_error hwords) hcompile
      by_contra hno
      obtain ⟨words, hok⟩ := hencode.2 fun n hn => by
        by_contra hlt
        exact hno ⟨n, hn, by omega⟩
      rw [hwords] at hok
      cases hok

/-- Two pulses on lines of different polarity, and a gate. -/
def Bench.pulsed : Sequence where
  name := "pulsed"
  length := 40
  shots := 1
  variants := 1
  hardware
  controls := []
  channels := [
    ⟨"laser", [⟨"early", .absolute 14, .absolute 20⟩, ⟨"late", .absolute 20, .absolute 39⟩], .output⟩,
    ⟨"shutter", [⟨"open", .absolute 0, .absolute 18⟩], .output⟩,
    ⟨"detector", [⟨"gate", .absolute 3, .absolute 5⟩], .control []⟩]

theorem Bench.pulsed_plays_levels : pulsed.verify.outcome = .ok () ∧ pulsed.hasJumps = false ∧
    .ofNat 0 < pulsed.variants ∧ ∃ t c, Timeline.ofVariant pulsed (.ofNat 0) = .ok t ∧
      (Sequence.ticks t quick).outcome = .ok 40 ∧ (pulsed.compile (.ofNat 0) quick).outcome = .ok c ∧
      ∀ (m : Machine) (idle : Int), m.words = c.words.toArray → 40 ≤ m.maxTicks →
        m.Plays idle 40 hardware.polarityMask (t.levels 40) := by
  have hverify : pulsed.verify.outcome = .ok () := by decide +kernel
  have hjumps : pulsed.hasJumps = false := rfl
  have hv : .ofNat 0 < pulsed.variants := by decide +kernel
  obtain ⟨t, length, ht, hlength, hout⟩ := Sequence.plays_levels hverify hjumps hv quick
  have htime : Timeline.ofVariant pulsed (.ofNat 0) = .ok ⟨pulsed, []⟩ := rfl
  cases htime.symm.trans ht
  have hforty : (Sequence.ticks ⟨pulsed, []⟩ quick).outcome = .ok 40 := by decide +kernel
  cases hforty.symm.trans hlength
  have hok : (pulsed.compile (.ofNat 0) quick).outcome.isOk = true := by decide +kernel
  refine ⟨hverify, hjumps, hv, ⟨pulsed, []⟩, ?_⟩
  cases hout (by decide) with
  | tooShort f hlength => omega
  | overflow f _ _ _ h =>
    rw [h] at hok
    cases hok
  | plays c _ _ h hplays => exact ⟨c, rfl, hforty, h, fun m idle hm hmax => hplays m idle hm (by omega)⟩

end PulseSequencer
