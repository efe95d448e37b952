import PulseSequencer.Proofs.Decisions
import PulseSequencer.Proofs.Held
import PulseSequencer.Proofs.JumpTimes
import PulseSequencer.Proofs.Reachability
import PulseSequencer.Proofs.Settled

/-!
# Runs that come to the END

* `Draft.Finishes` : from a position on, a run along the list comes to the END, with the right counts;
* `Layout.Orderly` : placement keeps jumps and destinations in the order of their times;
* `Layout.Ahead` : the JUMPs that come after a position, in terms of the jump graph;
* `Layout.finishes_of_edge`, `Layout.finishes_of_ends` : one edge of the graph, and a walk to its end, can be run along;
* `Sequence.exists_counts_ended` : compiled sequences can be run to their END.
-/

namespace PulseSequencer

/-- A number that a counter can give. -/
def Condition.Counted (count : Int) : Prop := 0 ≤ count ∧ count < countLimit

theorem Condition.counted_zero : Counted 0 := ⟨le_refl 0, by decide⟩

namespace Draft

variable {d : Draft} {position : Int}

/-- From a position on, a run along the list comes to the END, if the counts from then on are right and the limits are
high enough. -/
def Finishes (d : Draft) (position : Int) : Prop :=
  ∀ start : Nat, ∃ (counts : Nat → Nat → Int) (jumps ticks : Nat),
    (∀ channel tick, Condition.Counted (counts channel tick)) ∧
    ∀ (counts' : Nat → Nat → Int) (polarity : Int) (maxJumps maxTicks : Nat) (w : Walk),
      (∀ channel tick, start ≤ tick → counts' channel tick = counts channel tick) → w.halted = none →
      w.position = position → w.tick = start → w.jumps + jumps ≤ maxJumps → start + ticks ≤ maxTicks →
      ((d.walkStep polarity counts' maxJumps maxTicks)^[ticks] w).halted = some .ended

/-- A tick at which the run has the right count leads back from a position that finishes. -/
theorem Finishes.of_step {next : Int} (h : d.Finishes next) {count : Int} (hcount : Condition.Counted count)
    (hstep : ∀ (counts : Nat → Nat → Int) (polarity : Int) (maxJumps maxTicks : Nat) (w : Walk),
      (∀ channel, counts channel w.tick = count) → w.halted = none → w.position = position →
      w.tick < maxTicks → w.jumps < maxJumps →
      ∃ w', d.walkStep polarity counts maxJumps maxTicks w = w' ∧ w'.halted = none ∧ w'.position = next ∧
        w'.tick = w.tick + 1 ∧ w'.jumps ≤ w.jumps + 1) : d.Finishes position := by
  intro start
  obtain ⟨counts, jumps, ticks, hcounts, hrun⟩ := h (start + 1)
  refine ⟨fun channel tick => if tick = start then count else counts channel tick, jumps + 1, ticks + 1,
    fun channel tick => ?_, fun counts' polarity maxJumps maxTicks w hagree hhalted hpos htick hjumps hticks => ?_⟩
  · simp only
    split
    · exact hcount
    · exact hcounts channel tick
  · subst htick
    have hnow : ∀ channel, counts' channel w.tick = count := fun channel =>
      (hagree channel w.tick (le_refl _)).trans (if_pos rfl)
    obtain ⟨w', hw', hhalted', hpos', htick', hjumps'⟩ :=
      hstep counts' polarity maxJumps maxTicks w hnow hhalted hpos (by omega) (by omega)
    rw [Function.iterate_succ_apply, hw']
    refine hrun counts' polarity maxJumps maxTicks w' (fun channel tick hle => ?_) hhalted' hpos' htick' (by omega)
      (by omega)
    exact (hagree channel tick (by omega)).trans (if_neg (by omega))

theorem finishes_of_stop (ht : d.Timed) {l : Label} (hl : l ∈ d.list) (hact : (d.board.get l).action = .stop) :
    d.Finishes (d.board.time l) := by
  refine fun start => ⟨fun _ _ => 0, 0, 1, fun _ _ => Condition.counted_zero,
    fun counts' polarity maxJumps maxTicks w _ hhalted hpos htick _ hticks => ?_⟩
  have hlimit : ¬ maxTicks ≤ w.tick := by omega
  simp [walkStep, hhalted, hlimit, hpos, ht.at?_time hl, hact]

/-- An instruction that the run can get past: a SET, or a JUMP that is not taken at the count 0. -/
def Passable (d : Draft) (l : Label) : Prop :=
  (d.board.get l).isSet = true ∨
    ∃ channel threshold g, (d.board.get l).action = .jump false channel threshold g ∧ ¬ threshold ≤ .finite 0

theorem Finishes.of_passable (hpass : ∀ l ∈ d.list, d.board.time l = position → d.Passable l)
    (h : d.Finishes (position + 1)) : d.Finishes position := by
  refine h.of_step Condition.counted_zero fun counts polarity maxJumps maxTicks w hcounts hhalted hpos hticks _ => ?_
  refine ⟨_, rfl, ?_⟩
  have hlimit : ¬ maxTicks ≤ w.tick := by omega
  cases hat : d.at? position with
  | none => simp [walkStep, hhalted, hlimit, hpos, hat]
  | some l =>
    have hl : l ∈ d.list := List.mem_of_find?_eq_some hat
    have htime : d.board.time l = position := by simpa using List.find?_some hat
    rcases hpass l hl htime with hset | ⟨channel, threshold, g, hact, hnot⟩
    · obtain ⟨drive, hact⟩ := Instruction.isSet_iff.1 hset
      simp [walkStep, hhalted, hlimit, hpos, hat, hact]
    · simp [walkStep, hhalted, hlimit, hpos, hat, hact, hcounts, hnot]

/-- The run gets past all instructions between two positions. -/
theorem Finishes.back {p q : Int} (hpq : p ≤ q)
    (hpass : ∀ l ∈ d.list, p ≤ d.board.time l → d.board.time l < q → d.Passable l) (h : d.Finishes q) :
    d.Finishes p := by
  obtain ⟨n, rfl⟩ : ∃ n : Nat, q = p + n := ⟨(q - p).toNat, by omega⟩
  induction n generalizing p with
  | zero => simpa using h
  | succ n ih =>
    refine .of_passable (fun l hl htime => hpass l hl (by omega) (by omega)) (ih (by omega) (fun l hl h1 h2 => ?_) ?_)
    · exact hpass l hl (by omega) (by push_cast at h2 ⊢; omega)
    · rwa [show p + 1 + (n : Int) = p + ((n + 1 : Nat) : Int) by push_cast; ring]

/-- A JUMP is taken at a count that reaches its threshold. -/
theorem Finishes.of_jump (ht : d.Timed) {l g : Label} {always : Bool} {channel threshold : Binary64} {count : Int}
    (hl : l ∈ d.list) (hact : (d.board.get l).action = .jump always channel threshold g)
    (hcount : Condition.Counted count) (hreach : threshold ≤ .finite count) (h : d.Finishes (d.board.time g)) :
    d.Finishes (d.board.time l) := by
  refine h.of_step hcount
    fun counts polarity maxJumps maxTicks w hcounts hhalted hpos hticks hjumps => ⟨_, rfl, ?_⟩
  have hlimit : ¬ maxTicks ≤ w.tick := by omega
  have hroom : ¬ maxJumps < w.jumps + 1 := by omega
  simp [walkStep, hhalted, hlimit, hroom, hpos, ht.at?_time hl, hact, hcounts, hreach]

end Draft

/-! ## JUMPs of a slot -/

/-- The JUMPs of a slot are in its block, or in none and at its tick. -/
theorem Build.Branches.cell {f : Frame} {slots : List Slot} {sl : Slot} {ladder : Ladder} {xs : List Label} {d : Draft}
    (h : Branches f slots sl ladder xs d) : ∀ x ∈ xs, (d.board.get x).target? ≠ none ∧
      ((d.board.get x).block = some sl.jump.name ∨ (d.board.get x).block = none ∧ d.board.time x = sl.tick) := by
  intro x hx
  by_cases hone : ∃ r, ladder = [r]
  · obtain ⟨r, rfl⟩ := hone
    by_cases hpass : r.target = .pass
    · rw [h.skipped r rfl hpass] at hx
      cases hx
    · obtain ⟨y, g, rfl, hget, -⟩ := h.single r rfl hpass
      rw [List.mem_singleton.1 hx, Board.time, hget]
      exact ⟨by simp [Instruction.target?], .inr ⟨rfl, rfl⟩⟩
  · obtain ⟨marker, -, -, hrow⟩ := h.row (not_exists.1 hone)
    obtain ⟨r, -, time, g, hget, -⟩ := forall₂_exists_left hrow.forall₂ hx
    rw [hget]
    exact ⟨by simp [Instruction.target?, jumping], .inl rfl⟩

/-- A JUMP in front of another one of its row has a higher threshold. -/
theorem Build.Row.threshold_lt {f : Frame} {slots : List Slot} {sl : Slot} {marker : Option Label} {b : Board}
    {tick : Int} {rungs : Ladder} {xs : List Label} (h : Row f slots sl marker b tick rungs xs)
    (hasc : rungs.Pairwise fun r r' => r.threshold < r'.threshold) :
    (∀ x ∈ xs, b.time x ≤ tick) ∧ ∀ r x, (r, x) ∈ rungs.zip xs → ∀ y ∈ xs, b.time y < b.time x →
      ∃ r' ∈ rungs, ∃ g, b.get y = jumping sl r' (b.time y) g ∧ r.threshold < r'.threshold := by
  induction h with
  | nil => simp
  | @cons tick r₀ rest x₀ g xs hx _ hrest ih =>
    obtain ⟨hr₀, hasc⟩ := List.pairwise_cons.1 hasc
    obtain ⟨hle, hlt⟩ := ih hasc
    have htime : b.time x₀ = tick := by rw [Board.time, hx]; rfl
    refine ⟨List.forall_mem_cons.2 ⟨htime.le, fun x hx => (hle x hx).trans (by omega)⟩, fun r x hrx y hy hyx => ?_⟩
    rcases List.mem_cons.1 hrx with heq | hrest'
    · obtain ⟨rfl, rfl⟩ := Prod.mk.inj heq
      rcases List.mem_cons.1 hy with rfl | hy
      · exact absurd hyx (lt_irrefl _)
      · obtain ⟨r', hr', time, g', hget, -⟩ := forall₂_exists_left hrest.forall₂ hy
        have hy' : b.time y = time := by rw [Board.time, hget]; rfl
        exact ⟨r', List.mem_cons_of_mem _ hr', g', by rw [hy', hget], hr₀ r' hr'⟩
    · rcases List.mem_cons.1 hy with rfl | hy
      · have := hle x (List.of_mem_zip hrest').2
        omega
      · obtain ⟨r', hr', g', hget, hthreshold⟩ := hlt r x hrest' y hy hyx
        exact ⟨r', List.mem_cons_of_mem _ hr', g', hget, hthreshold⟩

variable {s : Sequence} {variant : Binary64} {o : Options}

namespace Sketch

variable (k : Sketch s variant o)

/-- The JUMP is one of the slot: in its block, or in none and at its tick. -/
def Owns (sl : Slot) (x : Label) : Prop :=
  x ∈ k.emitted.draft.list ∧ (k.emitted.draft.board.get x).target? ≠ none ∧
    ((k.emitted.draft.board.get x).block = some sl.jump.name ∨
      (k.emitted.draft.board.get x).block = none ∧ k.emitted.draft.board.time x = sl.tick)

instance (sl : Slot) (x : Label) : Decidable (k.Owns sl x) := inferInstanceAs (Decidable (_ ∧ _ ∧ (_ ∨ _ ∧ _)))

/-- The JUMPs of the slot. -/
def jumpsFrom (sl : Slot) : List Label := k.emitted.draft.list.filter fun x => decide (k.Owns sl x)

theorem mem_jumpsFrom {k : Sketch s variant o} {sl : Slot} {x : Label} : x ∈ k.jumpsFrom sl ↔ k.Owns sl x := by
  rw [jumpsFrom, List.mem_filter, decide_eq_true_iff]
  exact ⟨fun h => h.2, fun h => ⟨h.1, h⟩⟩

/-- The places that a JUMP of the slot can be meant for: those of the rungs with its test. -/
def destinations (sl : Slot) (x : Label) : List Reference :=
  match sl.jump.mergedLadder with
  | .error _ => []
  | .ok ladder => ladder.filterMap fun r =>
    match r.target with
    | .destination ref =>
      let g := ((k.emitted.draft.board.get x).target?).getD 0
      if (k.emitted.draft.board.get x).action = (Build.jumping sl r 0 g).action then some ref else none
    | _ => none

theorem mem_destinations {k : Sketch s variant o} {sl : Slot} {ladder : Ladder} {r : Rung} {ref : Reference}
    {x g : Label} (hladder : sl.jump.mergedLadder = .ok ladder) (hr : r ∈ ladder) (ht : r.target = .destination ref)
    (hact : (k.emitted.draft.board.get x).action = (Build.jumping sl r 0 g).action) : ref ∈ k.destinations sl x := by
  have hg : (k.emitted.draft.board.get x).target? = some g := by rw [Instruction.target?, hact]; rfl
  rw [destinations, hladder]
  refine List.mem_filterMap.2 ⟨r, hr, ?_⟩
  rw [ht, hg]
  exact if_pos hact

theorem Owns.eq {k : Sketch s variant o} {sl sl' : Slot} {x : Label} (h : k.Owns sl x) (h' : k.Owns sl' x)
    (hsl : sl ∈ k.slots) (hsl' : sl' ∈ k.slots) : sl = sl' := by
  obtain ⟨-, -, hb | ⟨hb, ht⟩⟩ := h
  · obtain ⟨-, -, hb' | ⟨hb', -⟩⟩ := h'
    · refine List.inj_on_of_nodup_map k.names_slots hsl hsl' ?_
      rw [hb] at hb'
      exact Option.some.inj hb'
    · rw [hb] at hb'
      cases hb'
  · obtain ⟨-, -, hb' | ⟨-, ht'⟩⟩ := h'
    · rw [hb] at hb'
      cases hb'
    · exact List.inj_on_of_nodup_map (Build.ticks_of_slotsOf k.slots_eq) hsl hsl' (ht.symm.trans ht')

/-- The JUMPs of a slot are what its jump has become, and every JUMP is one of a slot. -/
theorem owns_spec :
    (∀ x ∈ k.emitted.draft.list, (k.emitted.draft.board.get x).target? ≠ none → ∃ sl ∈ k.slots, k.Owns sl x) ∧
    ∀ sl ∈ k.slots, ∃ ladder xs, sl.jump.mergedLadder = .ok ladder ∧
      Build.Branches k.frame k.slots sl ladder xs k.emitted.draft ∧ ∀ x, k.Owns sl x ↔ x ∈ xs := by
  obtain ⟨own, ⟨names, jumps, hjumps, hcont⟩, hbranches⟩ := k.branches
  have hmine : ∀ sl ∈ k.slots, ∀ x ∈ own sl, k.Owns sl x := fun sl hsl x hx => by
    obtain ⟨ladder, -, hb⟩ := hbranches sl hsl
    exact ⟨hb.mem x hx, hb.cell x hx⟩
  have hall : ∀ x ∈ k.emitted.draft.list, (k.emitted.draft.board.get x).target? ≠ none →
      ∃ sl ∈ k.slots, x ∈ own sl := by
    intro x hx htarget
    rcases hcont.grows.mem_cases hx with hx | ⟨-, hx | hset⟩
    · obtain ⟨rs, hrs⟩ := hcont.grows.alike x (k.ready_outlined.linked.valid x hx)
      rw [hrs] at htarget
      exact absurd (k.jumpless_outlined.target? k.ready_outlined hx) htarget
    · exact hjumps x hx
    · exact absurd (Instruction.target?_of_isSet hset) htarget
  refine ⟨fun x hx htarget => ?_, fun sl hsl => ?_⟩
  · obtain ⟨sl, hsl, hown⟩ := hall x hx htarget
    exact ⟨sl, hsl, hmine sl hsl x hown⟩
  · obtain ⟨ladder, hladder, hb⟩ := hbranches sl hsl
    refine ⟨ladder, own sl, hladder, hb, fun x => ⟨fun hx => ?_, hmine sl hsl x⟩⟩
    obtain ⟨sl', hsl', hown⟩ := hall x hx.1 hx.2.1
    rw [hx.eq (hmine sl' hsl' x hown) hsl hsl']
    exact hown

end Sketch

/-! ## Slots and the jump graph -/

/-- The slot stands for the jump of the graph. -/
structure Slot.Stands (sl : Slot) (j : TimedJump) : Prop where
  name : sl.jump.name = j.name
  time : sl.time = j.time
  ladder : sl.jump.mergedLadder = .ok j.ladder

namespace Sketch

variable {k : Sketch s variant o} {g : JumpGraph}

theorem exists_stands (hg : JumpGraph.ofTimeline k.timeline = .ok g) :
    (∀ sl ∈ k.slots, ∃ j ∈ g.jumps, sl.Stands j) ∧ ∀ j ∈ g.jumps, ∃ sl ∈ k.slots, sl.Stands j := by
  obtain ⟨-, js, hperm, hall⟩ := JumpGraph.perm_of_ofTimeline hg
  rw [k.sequence_eq] at hall
  have hstands : ∀ {sl : Slot} {e : Jump × Channel} {j : TimedJump}, Build.Serves k.frame e sl → j.name = e.1.name →
      k.timeline.jumpTime e.1.name = .ok j.time → e.1.mergedLadder = .ok j.ladder → sl.Stands j := by
    intro sl e j hserves hname htime hladder
    refine ⟨by rw [hserves.jump, hname], Except.ok.inj (hserves.time.symm.trans htime), by rw [hserves.jump, hladder]⟩
  constructor
  · intro sl hsl
    obtain ⟨e, he, hserves⟩ := k.exists_jump hsl
    obtain ⟨j, hj, h1, h2, h3⟩ := forall₂_exists_right hall he
    exact ⟨j, hperm.mem_iff.2 hj, hstands hserves h1 h2 h3⟩
  · intro j hj
    obtain ⟨e, he, h1, h2, h3⟩ := forall₂_exists_left hall (hperm.mem_iff.1 hj)
    obtain ⟨sl, hsl, hserves⟩ := k.exists_slot he
    exact ⟨sl, hsl, hstands hserves h1 h2 h3⟩

theorem lt_or_lt_of_ne (hg : JumpGraph.ofTimeline k.timeline = .ok g) (hord : g.Ordered) {sl sl' : Slot}
    (hsl : sl ∈ k.slots) (hsl' : sl' ∈ k.slots) (hne : sl ≠ sl') : sl.time < sl'.time ∨ sl'.time < sl.time := by
  obtain ⟨j, hj, hst⟩ := (exists_stands hg).1 sl hsl
  obtain ⟨j', hj', hst'⟩ := (exists_stands hg).1 sl' hsl'
  rw [hst.time, hst'.time]
  refine hord.lt_or_lt hj hj' fun heq => hne (List.inj_on_of_nodup_map k.names_slots hsl hsl' ?_)
  rw [hst.name, hst'.name, heq]

/-- The place that a jump of the given name goes to is not behind the jump of the slot. -/
def Before (k : Sketch s variant o) (name : String) (sl : Slot) : Reference → Prop
  | .jump target => ∃ sl' ∈ k.slots, sl'.jump.name = target ∧ ¬ sl.time < sl'.time
  | r => ∃ time ∈ (k.timeline.timeOf r name).toOption, time < sl.time

instance (name : String) (sl : Slot) (ref : Reference) : Decidable (k.Before name sl ref) :=
  match ref with
  | .jump target => inferInstanceAs (Decidable (∃ sl' ∈ k.slots, sl'.jump.name = target ∧ ¬ sl.time < sl'.time))
  | .start w => inferInstanceAs (Decidable (∃ time ∈ (k.timeline.timeOf (.start w) name).toOption, time < sl.time))
  | .finish w => inferInstanceAs (Decidable (∃ time ∈ (k.timeline.timeOf (.finish w) name).toOption, time < sl.time))
  | .control w => inferInstanceAs (Decidable (∃ time ∈ (k.timeline.timeOf (.control w) name).toOption, time < sl.time))

/-- What comes after a destination in the graph comes after it in time. -/
theorem before_iff (hg : JumpGraph.ofTimeline k.timeline = .ok g) (hord : g.Ordered) {sl sl' : Slot} {j : TimedJump}
    (hst : sl.Stands j) (hsl' : sl' ∈ k.slots) {ref : Reference} {next : Option TimedJump}
    (hleads : g.Leads j (.destination ref) next) :
    k.Before sl.jump.name sl' ref ↔ ∃ j' ∈ next, ¬ sl'.time < j'.time := by
  obtain ⟨i, hi, hst'⟩ := (exists_stands hg).1 sl' hsl'
  have htimeline : g.timeline = k.timeline := (JumpGraph.perm_of_ofTimeline hg).1
  have hwindow : ∀ r, (∃ time, g.timeline.timeOf r j.name = .ok time ∧ g.Follows time next) →
      ((∃ time ∈ (k.timeline.timeOf r sl.jump.name).toOption, time < sl'.time) ↔
        ∃ j' ∈ next, ¬ sl'.time < j'.time) := by
    rintro r ⟨time, htime, hfollows⟩
    rw [hst'.time, ← hord.lt_iff_of_follows hfollows hi, hst.name, ← htimeline]
    simp [htime, Except.toOption]
  cases ref with
  | jump target =>
    obtain ⟨i', hi', hname, rfl⟩ := hleads
    obtain ⟨sl₂, hsl₂, hst₂⟩ := (exists_stands hg).2 i' hi'
    constructor
    · rintro ⟨sl₃, hsl₃, hname₃, hnot⟩
      have heq : sl₃ = sl₂ := List.inj_on_of_nodup_map k.names_slots hsl₃ hsl₂ (by rw [hname₃, hst₂.name, hname])
      exact ⟨i', rfl, by rwa [← hst₂.time, ← heq]⟩
    · rintro ⟨_, ⟨⟩, hnot⟩
      exact ⟨sl₂, hsl₂, hst₂.name.trans hname, by rwa [hst₂.time]⟩
  | start w | finish w | control w => exact hwindow _ hleads

end Sketch

/-! ## The placed list -/

namespace Layout

variable [Collation] (k : Layout s variant o)

/-- The tick that an instruction is placed at. -/
def placeOf (l : Label) : Int := k.settled.board.time l

/-- The tick that a JUMP goes to. -/
def landingOf (x : Label) : Option Int := (k.settled.board.get x).target?.map k.placeOf

/-- Placement keeps jumps and destinations in the order of their times: the JUMPs of an earlier jump come first, and the
place where a jump lands is in front of the JUMPs of those jumps that its destination is in front of. -/
structure Orderly : Prop where
  jumps : ∀ sl ∈ k.slots, ∀ sl' ∈ k.slots, sl.time < sl'.time → ∀ x ∈ k.jumpsFrom sl, ∀ y ∈ k.jumpsFrom sl',
    k.placeOf x < k.placeOf y
  landings : ∀ sl ∈ k.slots, ∀ x ∈ k.jumpsFrom sl, ∀ ref ∈ k.destinations sl x, ∀ p ∈ k.landingOf x, ∀ sl' ∈ k.slots,
    ∀ y ∈ k.jumpsFrom sl', (p < k.placeOf y ↔ k.Before sl.jump.name sl' ref)

instance : Decidable k.Orderly := decidable_of_iff (_ ∧ _) ⟨fun h => Orderly.mk h.1 h.2, fun h => ⟨h.jumps, h.landings⟩⟩

variable {k} {g : JumpGraph}

theorem jump_settled {x l : Label} {always : Bool} {channel threshold : Binary64} (hx : x ∈ k.emitted.draft.list)
    (hact : (k.emitted.draft.board.get x).action = .jump always channel threshold l) :
    x ∈ k.settled.list ∧ (k.settled.board.get x).action = .jump always channel threshold (k.heir l) ∧
      k.heir l ∈ k.settled.list := by
  obtain ⟨hmem, hfinal, hheir⟩ := jump_final hx hact
  have hmem' := k.perm_settled.mem_iff.2 hmem
  exact ⟨hmem', by rw [← k.get_final hmem', hfinal], k.perm_settled.mem_iff.2 hheir⟩

theorem mem_settled_of_owns {sl : Slot} {x : Label} (h : k.Owns sl x) :
    x ∈ k.settled.list ∧ (k.settled.board.get x).isSet = false := by
  obtain ⟨hx, htarget, -⟩ := h
  obtain ⟨l, hl⟩ := Option.ne_none_iff_exists'.1 htarget
  unfold Instruction.target? at hl
  split at hl
  · rename_i hact
    obtain ⟨hmem, hact', -⟩ := jump_settled hx hact
    exact ⟨hmem, by rw [Instruction.isSet, hact']⟩
  · cases hl

/-- What is no SET and not the END is a JUMP of a slot. -/
theorem exists_owner {l : Label} (hl : l ∈ k.settled.list) (hset : (k.settled.board.get l).isSet = false)
    (hend : l ≠ k.frame.final) : ∃ sl ∈ k.slots, k.Owns sl l := by
  rw [k.isSet_settled] at hset
  obtain ⟨hl', hset'⟩ := k.descends.back l (k.perm_settled.mem_iff.1 hl) hset
  refine k.owns_spec.1 l hl' ?_
  rcases k.cases_emitted hl' hset' with rfl | ⟨_, _, _, _, hact, -⟩
  · exact absurd rfl hend
  · simp [Instruction.target?, hact]

theorem Orderly.placeOf_lt (ho : k.Orderly) {sl sl' : Slot} (hsl : sl ∈ k.slots) (hsl' : sl' ∈ k.slots)
    (hlt : sl.time < sl'.time) {x y : Label} (hx : k.Owns sl x) (hy : k.Owns sl' y) : k.placeOf x < k.placeOf y :=
  ho.jumps sl hsl sl' hsl' hlt x (Sketch.mem_jumpsFrom.2 hx) y (Sketch.mem_jumpsFrom.2 hy)

theorem Orderly.landing_lt (ho : k.Orderly) {sl sl' : Slot} (hsl : sl ∈ k.slots) {ladder : Ladder}
    (hladder : sl.jump.mergedLadder = .ok ladder) {r : Rung} {ref : Reference} (hr : r ∈ ladder)
    (ht : r.target = .destination ref) {x l y : Label} (hx : k.Owns sl x) (hb : k.Branch sl r x l)
    (hsl' : sl' ∈ k.slots) (hy : k.Owns sl' y) :
    k.placeOf (k.heir l) < k.placeOf y ↔ k.Before sl.jump.name sl' ref := by
  refine ho.landings sl hsl x (Sketch.mem_jumpsFrom.2 hx) ref (Sketch.mem_destinations hladder hr ht hb.action)
    _ ?_ sl' hsl' y (Sketch.mem_jumpsFrom.2 hy)
  rw [landingOf, Instruction.target?, (jump_settled hb.mem hb.action).2.1]
  rfl

/-- The END ends the run. -/
theorem finishes_end : k.settled.Finishes (k.length - 1) := by
  obtain ⟨hmem, rs, hend⟩ := k.ending_ledger
  have hact : (k.settled.board.get k.frame.final).action = .stop := by
    rw [k.action_settled (by rw [hend]; rfl), hend]
    rfl
  have := Draft.finishes_of_stop k.timed (k.perm_settled.mem_iff.2 hmem) hact
  rwa [k.time_end] at this

/-- Between two positions only the JUMPs matter. -/
theorem finishes_back {p q : Int} (hpq : p ≤ q) (hq : q < k.length)
    (hpass : ∀ sl ∈ k.slots, ∀ y, k.Owns sl y → p ≤ k.placeOf y → k.placeOf y < q → k.settled.Passable y)
    (h : k.settled.Finishes q) : k.settled.Finishes p := by
  refine h.back hpq fun l hl h1 h2 => ?_
  cases hset : (k.settled.board.get l).isSet with
  | true => exact .inl hset
  | false =>
    have hend : l ≠ k.frame.final := by
      rintro rfl
      have := k.time_end
      omega
    obtain ⟨sl, hsl, hown⟩ := exists_owner hl hset hend
    exact hpass sl hsl l hown h1 h2

variable (k) in
/-- From the position on, the JUMPs that come are those of `next` and of the jumps after it. -/
def Ahead (p : Int) (next : Option TimedJump) : Prop :=
  ∀ sl ∈ k.slots, ∀ y, k.Owns sl y → (p ≤ k.placeOf y ↔ ∃ j ∈ next, ¬ sl.time < j.time)

theorem finishes_of_ahead_none {p : Int} (hp : p < k.length) (h : k.Ahead p none) : k.settled.Finishes p := by
  refine finishes_back (by omega) (by omega) (fun sl hsl y hown hle _ => ?_) finishes_end
  obtain ⟨_, hnone, -⟩ := (h sl hsl y hown).1 hle
  cases hnone

/-! ## One jump -/

/-- The tick of a SET is not that of a JUMP. -/
theorem placeOf_ne {sl : Slot} {l y : Label} (hl : l ∈ k.settled.list) (hset : (k.settled.board.get l).isSet = true)
    (hy : k.Owns sl y) : k.placeOf l ≠ k.placeOf y := by
  obtain ⟨hmem, hnot⟩ := mem_settled_of_owns hy
  intro heq
  have hat := k.timed.at?_time hl
  rw [show k.settled.board.time l = k.settled.board.time y from heq, k.timed.at?_time hmem] at hat
  rw [Option.some.inj hat, hset] at hnot
  cases hnot

/-- The JUMPs of a row and the marker behind them keep their distances. -/
theorem exists_shift_row {sl : Slot} {marker : Option Label} {rungs : Ladder} {xs : List Label}
    (hrow : Build.Row k.frame k.slots sl marker k.emitted.draft.board sl.tick rungs xs)
    (hxs : ∀ y, k.Owns sl y ↔ y ∈ xs) : ∃ shift : Int,
      (∀ y ∈ xs, k.placeOf y = k.emitted.draft.board.time y + shift) ∧
      ∀ m, Build.Marks k.frame sl k.emitted.draft m → k.placeOf (k.heir m) = sl.tick + 1 + shift := by
  obtain ⟨shift, hshift⟩ := k.exists_shift sl.jump.name
  have hplace : ∀ l ∈ k.emitted.draft.list, (k.emitted.draft.board.get l).block = some sl.jump.name →
      k.placeOf (k.heir l) = k.emitted.draft.board.time l + shift := fun l hl hb => by
    rw [← hshift l hl hb, placeOf, Board.time, Board.time, k.get_final (k.perm_settled.mem_iff.2 (k.descends.mem l hl))]
  refine ⟨shift, fun y hy => ?_, ?_⟩
  · have hown := (hxs y).2 hy
    have hset : (k.emitted.draft.board.get y).isSet = false := by
      rw [← Bool.not_eq_true]
      exact fun hset => hown.2.1 (Instruction.target?_of_isSet hset)
    rw [← hplace y hown.1 (hrow.block y hy), (k.descends.other y hown.1 hset).1]
  · rintro m ⟨hmem, id, rs, hcell⟩
    rw [hplace m hmem (by rw [hcell]; rfl), Board.time, hcell]
    rfl

/-- A JUMP with a higher threshold than another rung of its ladder is not taken at the count 0. -/
theorem passable_of_jumping {sl : Slot} {ladder : Ladder} (hground : ladder.Grounded) {r r' : Rung} (hr : r ∈ ladder)
    (hr' : r' ∈ ladder) (hlt : r.threshold < r'.threshold) {y l : Label} {time : Int} (hy : y ∈ k.emitted.draft.list)
    (hcell : k.emitted.draft.board.get y = Build.jumping sl r' time l) : k.settled.Passable y := by
  obtain ⟨n, hn⟩ := hground.natural r hr
  obtain ⟨n', hn'⟩ := hground.natural r' hr'
  have hpos : 0 < n' := by
    rw [hn, hn', Binary64.finite_lt, Nat.cast_lt] at hlt
    omega
  have hequal : r'.threshold.equal 0 = false := by
    rw [← Bool.not_eq_true, hground.equal_zero_iff hr', hn', Binary64.finite.injEq]
    exact_mod_cast hpos.ne'
  obtain ⟨-, hact, -⟩ := jump_settled hy (congrArg Instruction.action hcell)
  rw [hequal] at hact
  refine .inr ⟨_, _, _, hact, ?_⟩
  rw [if_neg Bool.false_ne_true, hn', Binary64.finite_le, not_le]
  exact_mod_cast hpos

section Step

variable (hg : JumpGraph.ofTimeline k.timeline = .ok g) (hord : g.Ordered) (ho : k.Orderly) {sl : Slot} {j : TimedJump}
  (hsl : sl ∈ k.slots) (hst : sl.Stands j) {next : Option TimedJump}
  (hnext : ∀ p, p < k.length → k.Ahead p next → k.settled.Finishes p)

include hg hord ho hsl hst

/-- The JUMPs of the next slot are ahead, and there are no others in front of them. -/
theorem ahead_of_owns {p : Int} (hp : k.Ahead p (some j)) {x : Label} (hown : k.Owns sl x) :
    p ≤ k.placeOf x ∧ ∀ sl' ∈ k.slots, ∀ y, k.Owns sl' y → p ≤ k.placeOf y → k.placeOf y ≤ k.placeOf x → sl' = sl := by
  refine ⟨(hp sl hsl x hown).2 ⟨j, rfl, by rw [hst.time]; exact Binary64.lt_irrefl _⟩, fun sl' hsl' y hy h1 h2 => ?_⟩
  by_contra hne
  obtain ⟨_, ⟨⟩, hnot⟩ := (hp sl' hsl' y hy).1 h1
  rw [← hst.time] at hnot
  have hlater := (Sketch.lt_or_lt_of_ne hg hord hsl' hsl hne).resolve_left hnot
  exact absurd (ho.placeOf_lt hsl hsl' hlater hown hy) (not_lt.2 h2)

/-- The run gets to a JUMP of the next slot, if it gets past the ones in front of it. -/
theorem finishes_of_jump {p : Int} (hp : k.Ahead p (some j)) {r : Rung} {x l : Label} (hr : r ∈ j.ladder)
    (hown : k.Owns sl x) (hb : k.Branch sl r x l)
    (hpass : ∀ y, k.Owns sl y → k.placeOf y < k.placeOf x → k.settled.Passable y)
    (h : k.settled.Finishes (k.placeOf (k.heir l))) : k.settled.Finishes p := by
  obtain ⟨hmem, hact, -⟩ := jump_settled hb.mem hb.action
  obtain ⟨n, hn⟩ := (Ladder.grounded_of_mergedLadder hst.ladder).natural r hr
  have hreach : (if r.threshold.equal 0 then 0 else r.threshold) ≤ .finite (n : Int) := by
    split
    · rw [Binary64.zero_eq, Binary64.finite_le]
      exact_mod_cast Nat.zero_le n
    · rw [hn, Binary64.finite_le, Int.cast_natCast]
  have hcount : Condition.Counted n := by
    have hlt := (Ladder.descending_of_mergedLadder hst.ladder).2 r hr
    rw [hn, Binary64.finite_lt, Nat.cast_lt] at hlt
    exact ⟨Int.natCast_nonneg n, Int.ofNat_lt.2 hlt⟩
  have hx : k.settled.Finishes (k.placeOf x) := h.of_jump k.timed hmem hact hcount hreach
  obtain ⟨hle, honly⟩ := ahead_of_owns hg hord ho hsl hst hp hown
  refine finishes_back hle (k.range_settled hmem).2 (fun sl' hsl' y hy h1 h2 => ?_) hx
  exact hpass y (honly sl' hsl' y hy h1 h2.le ▸ hy) h2

include hnext

/-- Where a JUMP lands, the run goes on as the graph says. -/
theorem finishes_of_landing {r : Rung} {x l : Label} (hr : r ∈ j.ladder) (hleads : g.Leads j r.target next)
    (hown : k.Owns sl x) (hb : k.Branch sl r x l) (hpass : r.target ≠ .pass) :
    k.settled.Finishes (k.placeOf (k.heir l)) := by
  obtain ⟨marker, hgoal⟩ := hb.goal
  obtain ⟨-, -, hmem⟩ := jump_settled hb.mem hb.action
  have hl := (k.ready_emitted.linked.target x hb.mem l (by rw [Instruction.target?, hb.action])).1
  cases htarget : r.target with
  | pass => exact absurd htarget hpass
  | terminate =>
    rw [htarget] at hgoal
    cases hgoal with
    | terminate =>
      have hset : (k.emitted.draft.board.get k.frame.final).isSet = false := by
        rw [Instruction.isSet, k.ready_emitted.stop]
      rw [(k.descends.other _ hl hset).1, placeOf, k.time_end]
      exact finishes_end
  | destination ref =>
    have hset : (k.settled.board.get (k.heir l)).isSet = true := by
      rw [htarget] at hgoal
      cases hgoal with
      | destination id htick hcell =>
        rw [k.isSet_settled, k.descends.isSet l hl, hcell]
        rfl
    refine hnext _ (k.range_settled hmem).2 fun sl' hsl' y hy => ?_
    rw [← Sketch.before_iff hg hord hst hsl' (htarget ▸ hleads),
      ← ho.landing_lt hsl hst.ladder hr htarget hown hb hsl' hy]
    have hne := placeOf_ne hmem hset hy
    omega

omit hnext in
/-- Behind the row of a slot the next jump comes. -/
theorem ahead_of_marker {marker : Option Label} {m x : Label} {rungs : Ladder} {xs : List Label}
    (hfollows : g.Follows j.time next)
    (hrow : Build.Row k.frame k.slots sl marker k.emitted.draft.board sl.tick rungs xs)
    (hasc : rungs.Pairwise fun r r' => r.threshold < r'.threshold) (hxs : ∀ y, k.Owns sl y ↔ y ∈ xs) (hx : x ∈ xs.head?)
    (hm : Build.Marks k.frame sl k.emitted.draft m) :
    k.placeOf (k.heir m) = k.placeOf x + 1 ∧ k.Ahead (k.placeOf (k.heir m)) next := by
  obtain ⟨shift, hjump, hmark⟩ := exists_shift_row hrow hxs
  have hmarker := hmark m hm
  have hfirst : k.placeOf x = sl.tick + shift := by
    rw [hjump x (List.mem_of_mem_head? hx), hrow.ticks.2 x hx]
  have hlast : ∀ y ∈ xs, k.placeOf y ≤ k.placeOf x := fun y hy => by
    have := (hrow.threshold_lt hasc).1 y hy
    rw [hjump y hy, hfirst]
    omega
  have hown : k.Owns sl x := (hxs x).2 (List.mem_of_mem_head? hx)
  refine ⟨by omega, fun sl' hsl' y hy => ?_⟩
  obtain ⟨i, hi, hst'⟩ := (Sketch.exists_stands hg).1 sl' hsl'
  rw [hst'.time, ← hord.lt_iff_of_follows hfollows hi, ← hst.time, ← hst'.time]
  constructor
  · intro hle
    have hne : sl ≠ sl' := by
      rintro rfl
      have := hlast y ((hxs y).1 hy)
      omega
    refine (Sketch.lt_or_lt_of_ne hg hord hsl hsl' hne).resolve_right fun hlt => ?_
    have := ho.placeOf_lt hsl' hsl hlt hy hown
    omega
  · intro hlt
    have := ho.placeOf_lt hsl hsl' hlt hown hy
    omega

omit ho hnext in
/-- A jump without JUMPs is left out: what is ahead of it is ahead of the one after it. -/
theorem ahead_of_skipped {p : Int} (hp : k.Ahead p (some j)) (hfollows : g.Follows j.time next)
    (hnone : ∀ y, ¬ k.Owns sl y) : k.Ahead p next := by
  intro sl' hsl' y hy
  obtain ⟨i, hi, hst'⟩ := (Sketch.exists_stands hg).1 sl' hsl'
  have hne : sl ≠ sl' := by
    rintro rfl
    exact hnone y hy
  rw [hp sl' hsl' y hy, hst'.time, ← hord.lt_iff_of_follows hfollows hi, ← hst.time, ← hst'.time]
  constructor
  · rintro ⟨_, ⟨⟩, hnot⟩
    rw [← hst.time] at hnot
    exact (Sketch.lt_or_lt_of_ne hg hord hsl hsl' hne).resolve_right hnot
  · refine fun hlt => ⟨j, rfl, fun hlt' => ?_⟩
    rw [← hst.time] at hlt'
    exact Binary64.lt_irrefl _ (Binary64.lt_trans hlt hlt')

/-- The one JUMP of a ladder of one rung is taken at every count. -/
theorem finishes_of_single {p : Int} (hp : k.Ahead p (some j)) {r : Rung} (hladder : j.ladder = [r])
    (hleads : g.Leads j r.target next) (hpass : r.target ≠ .pass) {x l : Label} (hxs : ∀ y, k.Owns sl y ↔ y = x)
    (hget : k.emitted.draft.board.get x = ⟨sl.tick, none, none, [], .jump true 0 0 l⟩)
    (hgoal : Build.Goal k.frame k.slots sl none k.emitted.draft.board x r.target l) : k.settled.Finishes p := by
  have hr : r ∈ j.ladder := hladder ▸ List.mem_singleton.2 rfl
  have hground := Ladder.grounded_of_mergedLadder hst.ladder
  obtain ⟨e, hlast, h0⟩ := hground.last
  rw [hladder] at hlast
  cases hlast
  have hown := (hxs x).2 rfl
  have hbranch : k.Branch sl r x l := by
    refine ⟨hown.1, ?_, none, hgoal⟩
    rw [hget, (hground.equal_zero_iff hr).2 h0]
    rfl
  refine finishes_of_jump hg hord ho hsl hst hp hr hown hbranch (fun y hy hlt => ?_)
    (finishes_of_landing hg hord ho hsl hst hnext hr hleads hown hbranch hpass)
  rw [(hxs y).1 hy] at hlt
  exact absurd hlt (lt_irrefl _)

section Row

variable {p : Int} (hahead : k.Ahead p (some j)) {marker : Option Label} {xs : List Label} {x₀ : Label}
  (hmarks : ∀ m ∈ marker, Build.Marks k.frame sl k.emitted.draft m)
  (hrow : Build.Row k.frame k.slots sl marker k.emitted.draft.board sl.tick (Build.jumpRungs j.ladder) xs)
  (hxs : ∀ y, k.Owns sl y ↔ y ∈ xs) (hx₀ : x₀ ∈ xs.head?)

include hmarks hrow hxs hx₀

/-- From the marker behind a row, the run goes on to the next jump. -/
theorem finishes_of_marker {m : Label} (hm : m ∈ marker) (hfollows : g.Follows j.time next) :
    k.placeOf (k.heir m) = k.placeOf x₀ + 1 ∧ k.placeOf (k.heir m) < k.length ∧
      k.settled.Finishes (k.placeOf (k.heir m)) := by
  have hasc := Build.pairwise_jumpRungs (Ladder.descending_of_mergedLadder hst.ladder).1
  obtain ⟨hplace, hbehind⟩ := ahead_of_marker hg hord ho hsl hst hfollows hrow hasc hxs hx₀ (hmarks m hm)
  have hrange := k.range_settled (k.perm_settled.mem_iff.2 (k.descends.mem m (hmarks m hm).1))
  exact ⟨hplace, hrange.2, hnext _ hrange.2 hbehind⟩

include hahead

/-- A row is run along up to the JUMP of a rung. -/
theorem finishes_of_rung {r : Rung} (hr : r ∈ Build.jumpRungs j.ladder) (hleads : g.Leads j r.target next) :
    k.settled.Finishes p := by
  have hasc := Build.pairwise_jumpRungs (Ladder.descending_of_mergedLadder hst.ladder).1
  have hladder := Build.mem_of_mem_jumpRungs hr
  obtain ⟨shift, hjump, -⟩ := exists_shift_row hrow hxs
  have hzip : List.Forall₂ (fun a b => (a, b) ∈ (Build.jumpRungs j.ladder).zip xs) (Build.jumpRungs j.ladder) xs :=
    List.forall₂_iff_zip.2 ⟨hrow.forall₂.length_eq, fun h => h⟩
  obtain ⟨x, hx, hrx⟩ := forall₂_exists_right hzip hr
  obtain ⟨time, l, hcell, hgoal⟩ := (List.forall₂_iff_zip.1 hrow.forall₂).2 hrx
  have hown := (hxs x).2 hx
  have hbranch : k.Branch sl r x l := ⟨hown.1, by rw [hcell]; rfl, marker, hgoal⟩
  refine finishes_of_jump hg hord ho hsl hst hahead hladder hown hbranch (fun y hy hlt => ?_) ?_
  · have hy' := (hxs y).1 hy
    rw [hjump y hy', hjump x hx] at hlt
    obtain ⟨r', hr', l', hcell', hthreshold⟩ := (hrow.threshold_lt hasc).2 r x hrx y hy' (by omega)
    exact passable_of_jumping (Ladder.grounded_of_mergedLadder hst.ladder) hladder (Build.mem_of_mem_jumpRungs hr')
      hthreshold hy.1 hcell'
  · by_cases htarget : r.target = .pass
    · rw [htarget] at hgoal hleads
      cases hgoal with
      | pass hm => exact (finishes_of_marker hg hord ho hsl hst hnext hmarks hrow hxs hx₀ hm hleads).2.2
    · exact finishes_of_landing hg hord ho hsl hst hnext hladder hleads hown hbranch htarget

/-- If the last rung passes and has no JUMP, all JUMPs of the row are passed. -/
theorem finishes_past_row {m : Label} (hm : m ∈ marker) (hfollows : g.Follows j.time next) {init : Ladder} {r : Rung}
    (hladder : j.ladder = init ++ [r]) (hrungs : Build.jumpRungs j.ladder = init.reverse) : k.settled.Finishes p := by
  obtain ⟨hplace, hrange, hbehind⟩ := finishes_of_marker hg hord ho hsl hst hnext hmarks hrow hxs hx₀ hm hfollows
  obtain ⟨hle, honly⟩ := ahead_of_owns hg hord ho hsl hst hahead ((hxs x₀).2 (List.mem_of_mem_head? hx₀))
  refine finishes_back (by omega) hrange (fun sl' hsl' y hy h1 h2 => ?_) hbehind
  obtain rfl := honly sl' hsl' y hy h1 (by omega)
  obtain ⟨r', hr', time, l', hcell', -⟩ := forall₂_exists_left hrow.forall₂ ((hxs y).1 hy)
  rw [hrungs, List.mem_reverse] at hr'
  have hdesc := (Ladder.descending_of_mergedLadder hst.ladder).1
  have hground := Ladder.grounded_of_mergedLadder hst.ladder
  rw [hladder] at hdesc hground
  have hthreshold := (List.pairwise_append.1 hdesc).2.2 r' hr' r (List.mem_singleton.2 rfl)
  exact passable_of_jumping hground (by simp) (List.mem_append_left _ hr') hthreshold hy.1 hcell'

omit hx₀ in
/-- A row is run along up to the JUMP of a rung, or up to the marker behind it. -/
theorem finishes_of_row {r : Rung} (hr : r ∈ j.ladder) (hleads : g.Leads j r.target next)
    (hpass : (∃ r ∈ j.ladder, r.target = .pass) → ∃ m, marker = some m) (hlen : 2 ≤ j.ladder.length) :
    k.settled.Finishes p := by
  have hground := Ladder.grounded_of_mergedLadder hst.ladder
  -- the row has a JUMP at the tick of the slot
  have hne : xs ≠ [] := by
    rintro rfl
    exact Build.jumpRungs_ne_nil hground hlen (List.eq_nil_of_length_eq_zero hrow.forall₂.length_eq)
  have hx₀ := List.head?_eq_some_head hne
  by_cases hmem : r ∈ Build.jumpRungs j.ladder
  · exact finishes_of_rung hg hord ho hsl hst hnext hahead hmarks hrow hxs hx₀ hmem hleads
  · rcases Build.jumpRungs_cases hground with ⟨init, e, hl, htarget, hrungs⟩ | ⟨hrungs, -⟩
    · obtain rfl : r = e := by
        rw [hrungs, List.mem_reverse] at hmem
        rw [hl] at hr
        exact List.mem_singleton.1 ((List.mem_append.1 hr).resolve_left hmem)
      obtain ⟨m, hm⟩ := hpass ⟨r, hr, htarget⟩
      rw [htarget] at hleads
      exact finishes_past_row hg hord ho hsl hst hnext hahead hmarks hrow hxs hx₀ hm hleads hl hrungs
    · rw [hrungs, List.mem_reverse] at hmem
      exact absurd hr hmem

end Row

end Step

/-- One edge of the graph is run along. -/
theorem finishes_of_edge (hg : JumpGraph.ofTimeline k.timeline = .ok g) (hord : g.Ordered) (ho : k.Orderly)
    {j : TimedJump} (hj : j ∈ g.jumps) {next : Option TimedJump} (hedge : g.Edge j next)
    (hnext : ∀ p, p < k.length → k.Ahead p next → k.settled.Finishes p) {p : Int} (hp : p < k.length)
    (hahead : k.Ahead p (some j)) : k.settled.Finishes p := by
  obtain ⟨r, hr, hleads⟩ := hedge
  obtain ⟨sl, hsl, hst⟩ := (Sketch.exists_stands hg).2 j hj
  obtain ⟨ladder, xs, hladder, hb, hxs⟩ := k.owns_spec.2 sl hsl
  obtain rfl : j.ladder = ladder := Except.ok.inj (hst.ladder.symm.trans hladder)
  by_cases hone : ∃ e, j.ladder = [e]
  · obtain ⟨e, he⟩ := hone
    obtain rfl : r = e := List.mem_singleton.1 (he ▸ hr)
    by_cases hpass : r.target = .pass
    · have hnil := hb.skipped r he hpass
      rw [hpass] at hleads
      refine hnext p hp (ahead_of_skipped hg hord hsl hst hahead hleads fun y hy => ?_)
      exact List.not_mem_nil (hnil ▸ (hxs y).1 hy)
    · obtain ⟨x, l, rfl, hget, hgoal⟩ := hb.single r he hpass
      exact finishes_of_single hg hord ho hsl hst hnext hahead he hleads hpass
        (fun y => (hxs y).trans List.mem_singleton) hget hgoal
  · obtain ⟨marker, hmarks, hpass, hrow⟩ := hb.row (not_exists.1 hone)
    have hlen : 2 ≤ j.ladder.length := by
      have hne : j.ladder.length ≠ 1 := fun h => hone (List.length_eq_one_iff.1 h)
      have hpos := List.length_pos_of_mem hr
      omega
    exact finishes_of_row hg hord ho hsl hst hnext hahead hmarks hrow hxs hr hleads hpass hlen

/-- Where a walk through the graph reaches the end, so does a run. -/
theorem finishes_of_ends (hg : JumpGraph.ofTimeline k.timeline = .ok g) (hord : g.Ordered) (ho : k.Orderly)
    {j : TimedJump} (hj : j ∈ g.jumps) (hends : g.Ends j) :
    ∀ p, p < k.length → k.Ahead p (some j) → k.settled.Finishes p := by
  obtain ⟨last, hwalk, hend⟩ := hends
  induction hwalk using Relation.ReflTransGen.head_induction_on with
  | refl => exact fun p hp hahead => finishes_of_edge hg hord ho hj hend (fun q => finishes_of_ahead_none) hp hahead
  | head hedge _ ih =>
    exact fun p hp hahead => finishes_of_edge hg hord ho hj hedge (ih (JumpGraph.mem_of_edge hedge)) hp hahead

end Layout

/-! ## The whole run -/

/-- The jump graph of a variant that has been checked is in order, and its walks can come to the end. -/
theorem Opening.terminates {v : Nat} (k : Opening s (.ofNat v) o) :
    ∃ g, JumpGraph.ofTimeline k.timeline = .ok g ∧ g.Ordered ∧ g.Terminates := by
  have hv := Sequence.verified_of_verify k.verified
  have htimes := Sequence.jumpTimes_of_checkTiming (hv.checkTiming (hv.lt_variants k.variant_ok)) k.timeline_eq
  obtain ⟨g, hg, hcheck⟩ := htimes.graph
  have hord := htimes.ordered hv k.sequence_eq hg
  refine ⟨g, hg, hord, ?_⟩
  have hverdict := Tree.verdict_of_ordered hord (htimes.resolves hv k.sequence_eq hg) s.name
  rw [hcheck] at hverdict
  cases hverdict with
  | accepted _ hends _ => exact hends
  | tooDeep _ _ _ h | unreachable _ _ _ _ h => cases h

theorem Layout.finishes_of_orderly [Collation] {v : Nat} {k : Layout s (.ofNat v) o} (ho : k.Orderly) :
    k.settled.Finishes 0 := by
  have hlength := k.two_le
  obtain ⟨g, hg, hord, hends⟩ := k.terminates
  cases hjumps : g.jumps with
  | nil =>
    refine finishes_of_ahead_none (by omega) fun sl hsl y hy => ?_
    obtain ⟨j, hj, -⟩ := (Sketch.exists_stands hg).1 sl hsl
    rw [hjumps] at hj
    cases hj
  | cons first rest =>
    have hfirst : g.Earliest first := (hord.earliest_iff hjumps).2 rfl
    refine finishes_of_ends hg hord ho hfirst.1 (hends first hfirst) 0 (by omega) fun sl hsl y hy => ?_
    refine iff_of_true (k.range_settled (mem_settled_of_owns hy).1).1 ⟨first, rfl, fun hlt => ?_⟩
    obtain ⟨j, hj, hst⟩ := (Sketch.exists_stands hg).1 sl hsl
    rw [hst.time] at hlt
    rcases hfirst.2 j hj with rfl | hlater
    · exact Binary64.lt_irrefl _ hlt
    · exact Binary64.lt_irrefl _ (Binary64.lt_trans hlt hlater)

/-- What a run along the list does, the machine does with the words. -/
theorem Draft.Finishes.run {d f : Draft} {polarity : Int} {words : List Word} (h : d.Finishes 0)
    (hr : d.Realizes f polarity words) : ∃ (counts : Nat → Nat → Int) (jumps ticks : Nat),
      (∀ channel tick, Condition.Counted (counts channel tick)) ∧
      ∀ (idle : Int) (maxJumps maxTicks : Nat), jumps ≤ maxJumps → ticks ≤ maxTicks →
        ∃ st, (Machine.mk words.toArray counts maxJumps maxTicks).run (.initial idle) = .ok st ∧
          st.halted = some .ended := by
  obtain ⟨counts, jumps, ticks, hcounts, hrun⟩ := h 0
  refine ⟨counts, jumps, ticks, hcounts, fun idle maxJumps maxTicks hjumps hticks => ?_⟩
  have hended := hrun counts polarity maxJumps maxTicks (.initial idle) (fun _ _ _ => rfl) rfl rfl rfl
    (by simpa [Walk.initial] using hjumps) (by simpa using hticks)
  obtain ⟨st, hst, hagrees⟩ := hr.runFor_agrees (m := ⟨words.toArray, counts, maxJumps, maxTicks⟩) rfl (maxTicks + 1)
    (hr.agrees_initial idle)
  refine ⟨st, hst, ?_⟩
  rw [hagrees.halted, show maxTicks + 1 = (maxTicks + 1 - ticks) + ticks by omega, Function.iterate_add_apply,
    Function.iterate_fixed (walkStep_of_halted (by rw [hended]; simp)), hended]

/-- A compiled sequence can be run to its END: if placement keeps the order of times, there are counts with which the
machine gets there. -/
theorem Sequence.exists_counts_ended [Collation] {v : Nat} {c : Compiled} (h : (s.compile (.ofNat v) o).outcome = .ok c)
    (k : Layout s (.ofNat v) o) (ho : k.Orderly) : ∃ (counts : Nat → Nat → Int) (jumps ticks : Nat),
      (∀ channel tick, Condition.Counted (counts channel tick)) ∧
      ∀ (idle : Int) (maxJumps maxTicks : Nat), jumps ≤ maxJumps → ticks ≤ maxTicks →
        ∃ st, (Machine.mk c.words.toArray counts maxJumps maxTicks).run (.initial idle) = .ok st ∧
          st.halted = some .ended := by
  rw [k.outcome_compile] at h
  cases hwords : k.addressed.encode with
  | error f =>
    rw [hwords] at h
    cases h
  | ok words =>
    rw [hwords] at h
    cases h
    exact (Layout.finishes_of_orderly ho).run (Layout.realizes hwords)

theorem Bench.gated_can_end : ∃ c, (gated.compile (.ofNat 0) quick).outcome = .ok c ∧
    ∃ (counts : Nat → Nat → Int) (jumps ticks : Nat), (∀ channel tick, Condition.Counted (counts channel tick)) ∧
      ∀ (idle : Int) (maxJumps maxTicks : Nat), jumps ≤ maxJumps → ticks ≤ maxTicks →
        ∃ st, (Machine.mk c.words.toArray counts maxJumps maxTicks).run (.initial idle) = .ok st ∧
          st.halted = some .ended := by
  have horderly : (Layout.ofSequence? gated (.ofNat 0) quick).any (fun k => decide k.Orderly) = true := by
    decide +kernel
  obtain ⟨k, -, ho⟩ := (Option.any_eq_true _ _).1 horderly
  obtain ⟨c, h⟩ := exists_compile_gated
  rw [show (0 : Binary64) = .ofNat 0 by decide +kernel] at h
  exact ⟨c, h, Sequence.exists_counts_ended h k (of_decide_eq_true ho)⟩

end PulseSequencer
