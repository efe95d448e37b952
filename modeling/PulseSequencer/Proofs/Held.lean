import PulseSequencer.Proofs.Finish
import PulseSequencer.Proofs.Ladder

/-!
# SETs carry the state of their tick

* `Layout.tickAt?` : the tick that the SET behind a word had before placement;
* `Layout.state_of_set` : the word of a SET has the state of that tick on all lines outside the control register;
* `Layout.Branch`, `Layout.exists_branch` : the JUMP of a rung, and what it goes to;
* `Sequence.set_carries_state` : both, for every compiled sequence.
-/

namespace PulseSequencer

namespace Layout

variable [Collation] {s : Sequence} {variant : Binary64} {o : Options} {k : Layout s variant o} {words : List Word}

/-- The tick, before placement, of the last SET of the placed list up to a place of the final list. A SET of the placed
list stands at its own place; what fills a gap has the SET before it. -/
def tickAt? (k : Layout s variant o) (i : Nat) : Option Int :=
  ((k.final.list.take (i + 1)).filter fun l => decide (l ∈ k.ledger.sets)).getLast?.map k.ledger.board.time

theorem tickAt?_idxOf {l : Label} (hl : l ∈ k.ledger.sets) :
    k.tickAt? (k.final.list.idxOf l) = some (k.ledger.board.time l) := by
  have hlt := List.idxOf_lt_length_of_mem (k.mem_final (Draft.mem_sets.1 hl).1)
  rw [tickAt?, List.take_succ_eq_append_getElem hlt, List.getElem_idxOf, List.filter_append,
    List.filter_cons_of_pos (by simpa using hl), List.filter_nil, List.getLast?_append, List.getLast?_singleton]
  rfl

/-- A SET of the final list drives the state of the tick of a SET of the placed list. -/
theorem exists_carrier {i : Nat} {x : Label} {e : Drive} (hx : k.final.list[i]? = some x)
    (hact : (k.final.board.get x).action = .set e) :
    ∃ t, k.tickAt? i = some t ∧ ∀ j, Bits.bit k.lines j = true → Bits.bit e.value j = Bits.bit (k.signal t) j := by
  have hsets : ∀ l ∈ k.settled.list, decide (l ∈ k.ledger.sets) = (k.final.board.get l).isSet := fun l hl => by
    have hl := k.perm_settled.mem_iff.1 hl
    rw [(final_of_ledger hl).1, Bool.eq_iff_iff, decide_eq_true_eq, Draft.mem_sets]
    exact and_iff_right hl
  obtain ⟨l, hlast, hvalue⟩ := k.covers_final.2.exists_held hsets
    (fun l hl => .inl (k.perm_settled.mem_iff.2 (Draft.mem_sets.1 (of_decide_eq_true hl)).1)) hx
    (Instruction.isSet_iff.2 ⟨e, hact⟩)
  rw [Option.or_none] at hlast
  have hl := (List.mem_filter.1 (List.mem_of_getLast? hlast)).2
  have hmem := k.perm_settled.mem_iff.2 (Draft.mem_sets.1 (of_decide_eq_true hl)).1
  rw [hsets l hmem, k.get_final hmem] at hl
  have hfull := k.settled_spec.2.2 l (Draft.mem_sets.2 ⟨hmem, hl⟩)
  refine ⟨k.ledger.board.time l, by rw [tickAt?, hlast]; rfl, fun j hj => ?_⟩
  rw [← (hfull j hj).2, ← k.get_final hmem, ← hvalue, Instruction.drive, hact]

/-- Outside the control register, a value on the bus is the state of a tick. -/
def Shows (k : Layout s variant o) (v : Nat) (t : Int) : Prop :=
  Bits.without v (Register.mask s.hardware.register) =
    Bits.without (Bits.xor (Pulse.stateAt k.frame.pulses t) s.hardware.polarityMask) (Register.mask s.hardware.register)

/-- What agrees with the state on the lines, and fits the bus, shows it. -/
theorem shows_of_lines {value t : Int}
    (hlines : ∀ j, Bits.bit k.lines j = true → Bits.bit value j = Bits.bit (k.signal t) j)
    (hlimit : Bits.unsigned (Bits.xor value s.hardware.polarityMask) < Word.busLimit) :
    k.Shows (Bits.unsigned (Bits.xor value s.hardware.polarityMask)) t := by
  have hc := (Sequence.verified_of_verify k.verified).hardware
  refine Bits.without_congr fun i hi => ?_
  rw [Bits.unsigned_xor_eq (lt_trans hlimit (by decide)), Bits.bit_xor, Bits.bit_xor]
  by_cases hlow : i < Hardware.outputLimit
  · rw [hlines i, Opening.signal]
    rw [Opening.lines, k.register_eq, Register.bit_complement, hi]
    simpa using hlow
  · -- above the outputs there is nothing on either side
    have hhigh := Nat.not_lt.1 hlow
    have hleft := Bits.unsigned_lt_iff.1 (show _ < 2 ^ Hardware.outputLimit from hlimit) i hhigh
    rw [Bits.bit_xor] at hleft
    have hright : Bits.bit (k.signal t) i = false := by
      rw [← Bool.not_eq_true]
      intro hbit
      have := Pulse.bit_complement_of_stateAt k.sound hbit
      rw [Register.bit_complement] at this
      simp [hlow] at this
    rw [Opening.signal] at hright
    rw [hleft, hright, Hardware.bit_polarityMask_of_le hc hhigh]
    rfl

/-- The word of a SET has the state of its tick on all lines outside the control register. -/
theorem state_of_set (h : k.addressed.encode = .ok words) {i v : Nat}
    (hv : operationAt? words i = some (.set v)) : ∃ t, k.tickAt? i = some t ∧ k.Shows v t := by
  rw [operationAt?_eq h, Option.map_eq_some_iff] at hv
  obtain ⟨x, hx, hlink⟩ := hv
  unfold Draft.linked at hlink
  split at hlink
  · cases hlink
  · cases hlink
  · rename_i e hact
    cases hlink
    obtain ⟨t, ht, hlines⟩ := exists_carrier hx hact
    have hlimit := encodable_of_encode h (List.mem_of_getElem? hx)
    simp only [Draft.Encodable, hact] at hlimit
    exact ⟨t, ht, shows_of_lines hlines hlimit⟩
  · cases hlink

/-! ## Landings -/

/-- The JUMP `x` of the draft stands for a rung of a slot and goes to `g`. -/
structure Branch (k : Layout s variant o) (sl : Slot) (r : Rung) (x g : Label) : Prop where
  mem : x ∈ k.emitted.draft.list
  action : (k.emitted.draft.board.get x).action = .jump (r.threshold.equal 0)
    (if r.threshold.equal 0 then 0 else sl.channel) (if r.threshold.equal 0 then 0 else r.threshold) g
  goal : ∃ marker, Build.Goal k.frame k.slots sl marker k.emitted.draft.board x r.target g

theorem exists_branch {sl : Slot} {ladder : Ladder} {r : Rung} (hsl : sl ∈ k.slots)
    (hladder : sl.jump.mergedLadder = .ok ladder) (hr : r ∈ ladder) (ht : r.target ≠ .pass) :
    ∃ x g, k.Branch sl r x g := by
  obtain ⟨own, -, hbranches⟩ := k.branches
  obtain ⟨ladder', hladder', hb⟩ := hbranches sl hsl
  cases hladder.symm.trans hladder'
  have hground := Ladder.grounded_of_mergedLadder hladder
  by_cases hone : ∃ e, ladder = [e]
  · obtain ⟨e, rfl⟩ := hone
    obtain rfl := List.mem_singleton.1 hr
    obtain ⟨e, he, h0⟩ := hground.last
    obtain rfl : r = e := Option.some.inj he
    obtain ⟨x, g, hx, hget, hgoal⟩ := hb.single r rfl ht
    refine ⟨x, g, hb.mem x (hx ▸ List.mem_singleton.2 rfl), ?_, none, hgoal⟩
    rw [hget, (hground.equal_zero_iff hr).2 h0]
    rfl
  · obtain ⟨marker, -, -, hrow⟩ := hb.row (not_exists.1 hone)
    obtain ⟨x, hx, tick, g, hget, hgoal⟩ := forall₂_exists_right hrow.forall₂ (Build.mem_jumpRungs hground hr ht)
    exact ⟨x, g, hb.mem x hx, by rw [hget]; rfl, marker, hgoal⟩

/-- The JUMP of a rung with a destination goes to a SET, which carries the state of the destination. -/
theorem state_of_branch (h : k.addressed.encode = .ok words) {sl : Slot} {r : Rung} {x g : Label} {ref : Reference}
    (hb : k.Branch sl r x g) (ht : r.target = .destination ref) :
    ∃ tick i a v always channel threshold, (Build.destinationTick k.frame k.slots sl.jump.name ref).outcome = .ok tick ∧
      k.final.list[i]? = some x ∧ operationAt? words i = some (.jump always channel threshold (a + 1)) ∧
      operationAt? words a = some (.set v) ∧ k.Shows v tick := by
  obtain ⟨marker, hgoal⟩ := hb.goal
  rw [ht] at hgoal
  cases hgoal with
  | @destination _ tick _ id htick hg =>
    obtain ⟨hx, hact, hheir⟩ := jump_final hb.mem hb.action
    have hgmem := (k.ready_emitted.linked.target x hb.mem g (by rw [Instruction.target?, hb.action])).1
    have hset : (k.final.board.get (k.heir g)).isSet = true := by
      rw [(final_of_ledger hheir).1, k.descends.isSet g hgmem, hg]
      rfl
    obtain ⟨e, he⟩ := Instruction.isSet_iff.1 hset
    have hword := operationAt?_idxOf h (k.mem_final hheir)
    rw [show k.final.linked s.hardware.polarityMask (k.heir g) =
      .set (Bits.unsigned (Bits.xor e.value s.hardware.polarityMask)) by simp only [Draft.linked, he]] at hword
    have hsets : k.heir g ∈ k.ledger.sets := Draft.mem_sets.2 ⟨hheir, by rw [← (final_of_ledger hheir).1]; exact hset⟩
    obtain ⟨t, htick', hstate⟩ := state_of_set h hword
    obtain rfl : tick = t := by
      rw [tickAt?_idxOf hsets, k.descends.time g hgmem, Board.time, hg] at htick'
      exact Option.some.inj htick'
    have hjump := operationAt?_idxOf h (k.mem_final hx)
    simp only [Draft.linked, hact] at hjump
    refine ⟨tick, k.final.list.idxOf x, k.final.list.idxOf (k.heir g), _, _, _, _, htick, ?_, hjump, hword, hstate⟩
    rw [List.getElem?_eq_getElem (List.idxOf_lt_length_of_mem (k.mem_final hx)), List.getElem_idxOf]

end Layout

/-- The SETs of the words carry the state of their ticks outside the control register. So do those that jumps with a
destination land on: they carry the state of the destination. -/
structure Layout.Holds [Collation] {s : Sequence} {variant : Binary64} {o : Options} (k : Layout s variant o)
    (words : List Word) : Prop where
  encoded : k.addressed.encode = .ok words
  sets : ∀ i v, operationAt? words i = some (.set v) → ∃ t, k.tickAt? i = some t ∧ k.Shows v t
  landings : ∀ e ∈ s.jumps, ∃ sl ∈ k.slots, sl.jump = e.1 ∧ ∀ ladder, e.1.mergedLadder = .ok ladder → ∀ r ∈ ladder,
    ∀ ref, r.target = .destination ref → ∃ x g, k.Branch sl r x g ∧ ∃ tick i a v always channel threshold,
      (Build.destinationTick k.frame k.slots sl.jump.name ref).outcome = .ok tick ∧ k.final.list[i]? = some x ∧
      operationAt? words i = some (.jump always channel threshold (a + 1)) ∧
      operationAt? words a = some (.set v) ∧ k.Shows v tick

theorem Sequence.set_carries_state [Collation] {s : Sequence} {variant : Binary64} {o : Options} {c : Compiled}
    (h : (s.compile variant o).outcome = .ok c) : ∃ k : Layout s variant o, k.Holds c.words := by
  obtain ⟨k, hk⟩ := Layout.exists_of_compile h
  refine ⟨k, hk, fun i v hv => Layout.state_of_set hk hv, fun e he => ?_⟩
  obtain ⟨sl, hsl, hserves⟩ := k.exists_slot he
  have hjump := hserves.jump
  refine ⟨sl, hsl, hjump, fun ladder hladder r hr ref ht => ?_⟩
  obtain ⟨x, g, hb⟩ := Layout.exists_branch hsl (hjump ▸ hladder) hr (by rw [ht]; simp)
  exact ⟨x, g, hb, Layout.state_of_branch hk hb ht⟩

theorem Bench.gated_carries_state :
    ∃ c, (gated.compile 0 quick).outcome = .ok c ∧ ∃ k : Layout gated 0 quick, k.Holds c.words := by
  obtain ⟨c, h⟩ := exists_compile_gated
  exact ⟨c, h, Sequence.set_carries_state h⟩

end PulseSequencer
