import PulseSequencer.Proofs.Finish
import PulseSequencer.Proofs.Ladder
import PulseSequencer.Proofs.Walk

/-!
# The placed list can be run

* `Layout.cases_emitted` : every instruction of the draft with the jumps is a SET, the END or a JUMP of a slot;
* `Layout.time_end` : the END keeps the last tick;
* `Layout.timed` : the placed list starts with a SET at tick 0, ends with the END, and jumps to its own SETs and END;
* `Layout.realizes` : the words are those of the placed list.
-/

namespace PulseSequencer

namespace Instruction

/-- A JUMP that tests whole numbers. -/
def TestsWhole (i : Instruction) : Prop :=
  ∃ always channel threshold g, i.action = .jump always channel threshold g ∧ channel.isWhole = true ∧
    threshold.isWhole = true

theorem TestsWhole.retarget {i : Instruction} (h : i.TestsWhole) (heir : Label → Label) :
    (i.retarget heir).TestsWhole := by
  obtain ⟨always, channel, threshold, g, hact, hchannel, hthreshold⟩ := h
  refine ⟨always, channel, threshold, heir g, ?_, hchannel, hthreshold⟩
  rw [Instruction.retarget, hact]

end Instruction

/-- The JUMPs of a slot test whole numbers, since its channel and its thresholds are whole. -/
theorem Build.Branches.testsWhole {f : Frame} {slots : List Slot} {s : Slot} {ladder : Ladder} {xs : List Label}
    {d : Draft} (h : Branches f slots s ladder xs d) (hladder : ladder.Grounded) (hchannel : s.channel.isWhole = true) :
    ∀ x ∈ xs, (d.board.get x).TestsWhole := by
  have hzero : (0 : Binary64).isWhole = true := by decide
  intro x hx
  by_cases hone : ∃ r, ladder = [r]
  · obtain ⟨r, rfl⟩ := hone
    by_cases hpass : r.target = .pass
    · rw [h.skipped r rfl hpass] at hx
      cases hx
    · obtain ⟨y, g, rfl, hget, -⟩ := h.single r rfl hpass
      rw [List.mem_singleton.1 hx, hget]
      exact ⟨true, 0, 0, g, rfl, hzero, hzero⟩
  · obtain ⟨marker, -, -, hrow⟩ := h.row (not_exists.1 hone)
    obtain ⟨r, hr, time, g, hget, -⟩ := forall₂_exists_left hrow.forall₂ hx
    obtain ⟨n, hn⟩ := hladder.natural r (mem_of_mem_jumpRungs hr)
    have hthreshold : r.threshold.isWhole = true := by
      rw [hn]
      simp [Binary64.isWhole]
    rw [hget]
    refine ⟨_, _, _, g, rfl, ?_, ?_⟩ <;> split <;> assumption

namespace Layout

variable [Collation] {s : Sequence} {variant : Binary64} {o : Options} (k : Layout s variant o)

/-! ## Instructions -/

theorem channel_isWhole {sl : Slot} (hsl : sl ∈ k.slots) : sl.channel.isWhole = true := by
  obtain ⟨e, -, -, -, p, hp, hchannel⟩ := k.exists_jump hsl
  rw [show k.frame.sequence.hardware = s.hardware from congrArg Sequence.hardware k.sequence_eq] at hp
  have hchecked := (Sequence.verified_of_verify k.verified).hardware
  rw [hchannel]
  exact (hchecked.counter p (Pulse.mem_of_pulseCounter hp).1).whole

theorem cases_emitted {l : Label} (hl : l ∈ k.emitted.draft.list)
    (hset : (k.emitted.draft.board.get l).isSet = false) :
    l = k.frame.final ∨ (k.emitted.draft.board.get l).TestsWhole := by
  obtain ⟨own, ⟨names, jumps, hjumps, hcont⟩, hbranches⟩ := k.branches
  rcases hcont.grows.mem_cases hl with hl | ⟨-, hl | hset'⟩
  · obtain ⟨rs, hrs⟩ := hcont.grows.alike l (k.ready_outlined.linked.valid l hl)
    rw [hrs] at hset
    exact .inl (k.jumpless_outlined l hl hset)
  · obtain ⟨sl, hsl, hown⟩ := hjumps l hl
    obtain ⟨ladder, hladder, hb⟩ := hbranches sl hsl
    exact .inr (hb.testsWhole (Ladder.grounded_of_mergedLadder hladder) (k.channel_isWhole hsl) l hown)
  · rw [hset] at hset'
    cases hset'

/-- The END is in the placed list as it was at the start, but for the jumps that go to it. -/
theorem ending_ledger : k.frame.final ∈ k.ledger.list ∧
    ∃ rs, k.ledger.board.get k.frame.final = { Instruction.ending k.length with reachedBy := rs } := by
  have hready := k.ready_emitted
  have hset : (k.emitted.draft.board.get k.frame.final).isSet = false := by rw [Instruction.isSet, hready.stop]
  obtain ⟨hself, hget⟩ := k.descends.other _ hready.final hset
  have hmem := k.descends.mem _ hready.final
  rw [hself] at hmem
  refine ⟨hmem, ?_⟩
  rw [hget, Instruction.retarget_of_target?_eq_none (by rw [Instruction.target?, hready.stop])]
  exact hready.ending

/-- Placement and inheritance leave all but SETs as they are, up to ticks. -/
theorem action_settled {l : Label} (hset : (k.ledger.board.get l).isSet = false) :
    (k.settled.board.get l).action = (k.ledger.board.get l).action := by
  have hret := k.placement.retimed
  rw [k.settled_spec.2.1.get_of_not_isSet (by rw [hret.isSet_eq, hset]), hret.action_eq]

theorem isSet_settled (l : Label) : (k.settled.board.get l).isSet = (k.ledger.board.get l).isSet := by
  rw [k.settled_spec.2.1.sameLinks.isSet, k.placement.retimed.isSet_eq]

theorem time_settled (l : Label) : k.settled.board.time l = k.placed.board.time l := k.settled_spec.2.1.time_eq l

/-- Every instruction of the placed list is a SET, the END or a JUMP. -/
theorem cases_settled {l : Label} (hl : l ∈ k.settled.list) (hset : (k.settled.board.get l).isSet = false) :
    (l = k.frame.final ∧ (k.settled.board.get l).action = .stop) ∨ (k.settled.board.get l).TestsWhole := by
  have hledger : l ∈ k.ledger.list := k.perm_settled.mem_iff.1 hl
  rw [k.isSet_settled] at hset
  obtain ⟨hl', hset'⟩ := k.descends.back l hledger hset
  have hget := (k.descends.other l hl' hset').2
  rcases k.cases_emitted hl' hset' with rfl | hjump
  · refine .inl ⟨rfl, ?_⟩
    obtain ⟨-, rs, hend⟩ := k.ending_ledger
    rw [k.action_settled hset, hend]
    rfl
  · obtain ⟨always, channel, threshold, g, hact, hwhole⟩ := hjump.retarget k.heir
    exact .inr ⟨always, channel, threshold, g, by rw [k.action_settled hset, hget, hact], hwhole⟩

/-! ## Ticks -/

theorem time_end : k.settled.board.time k.frame.final = k.length - 1 := by
  obtain ⟨hmem, rs, hend⟩ := k.ending_ledger
  obtain ⟨shift, hzero, hshift⟩ := k.placement.shift
  have htime := hshift _ hmem Block.endName (by rw [hend]; rfl)
  rw [k.time_settled, htime, hzero, Board.time, hend]
  exact Int.add_zero _

theorem range_settled {l : Label} (hl : l ∈ k.settled.list) :
    0 ≤ k.settled.board.time l ∧ k.settled.board.time l < k.length := by
  rw [k.time_settled]
  exact k.placement.range l (k.settled_spec.1 ▸ hl)

/-- The SET of tick 0 comes first. -/
theorem first_settled : ∃ l rest, k.settled.list = l :: rest ∧ (k.settled.board.get l).isSet = true ∧
    k.settled.board.time l = 0 := by
  obtain ⟨l, hl, hzero⟩ : ∃ l ∈ k.settled.list, (k.settled.board.get l).isSet = true ∧ k.settled.board.time l = 0 := by
    have hsort : k.placed.sort.sets = k.placed.sets := by
      rw [Draft.sets, Draft.list_sort, Draft.board_sort, Draft.sorted_of_increasing k.placement.increasing, Draft.sets]
    obtain ⟨x, hx, -⟩ := k.exists_start_ledger
    have hx' : x ∈ k.placed.sort.sets := by
      rwa [hsort, Draft.mem_sets, k.placement.perm.mem_iff, k.placement.retimed.isSet_eq, ← Draft.mem_sets]
    obtain ⟨-, ⟨hnil, -⟩ | ⟨first, rest, hcons, htime, -⟩⟩ := Draft.inheritOutputs_eq_ok k.settled_eq
    · rw [hnil] at hx'
      cases hx'
    · have hfirst : first ∈ k.placed.sets := by
        rw [← hsort, hcons]
        exact List.mem_cons_self
      obtain ⟨hmem, hset⟩ := Draft.mem_sets.1 hfirst
      refine ⟨first, by rw [k.settled_spec.1]; exact hmem, ?_, ?_⟩
      · rw [k.settled_spec.2.1.sameLinks.isSet, hset]
      · rw [k.time_settled, htime]
  cases hlist : k.settled.list with
  | nil =>
    rw [hlist] at hl
    cases hl
  | cons y rest =>
    refine ⟨y, rest, rfl, ?_⟩
    have hinc := k.increasing_settled
    have hy := k.range_settled (l := y) (by rw [hlist]; exact List.mem_cons_self)
    rw [hlist] at hl hinc
    rcases List.mem_cons.1 hl with rfl | hl
    · exact hzero
    · have := (List.pairwise_cons.1 hinc).1 l hl
      omega

/-- The END comes last. -/
theorem last_settled : ∃ init, k.settled.list = init ++ [k.frame.final] := by
  have hmem : k.frame.final ∈ k.settled.list := k.perm_settled.mem_iff.2 k.ending_ledger.1
  obtain ⟨init, rest, hlist⟩ := List.append_of_mem hmem
  cases rest with
  | nil => exact ⟨init, hlist⟩
  | cons y rest =>
    have hinc := k.increasing_settled
    rw [hlist, List.pairwise_append, List.pairwise_cons] at hinc
    have hlt := hinc.2.1.1 y List.mem_cons_self
    have hrange := k.range_settled (l := y) (by rw [hlist]; simp)
    have hend := k.time_end
    omega

/-! ## The whole -/

theorem timed : k.settled.Timed where
  increasing := k.increasing_settled
  first := k.first_settled
  last := by
    obtain ⟨init, hlist⟩ := k.last_settled
    refine ⟨init, k.frame.final, hlist, ?_⟩
    obtain ⟨-, rs, hend⟩ := k.ending_ledger
    rw [k.action_settled (by rw [hend]; rfl), hend]
    rfl
  noWait := by
    intro l hl duration hact
    rcases k.cases_settled hl (by rw [Instruction.isSet, hact]) with ⟨-, hstop⟩ | ⟨_, _, _, _, hjump, -⟩
    · rw [hact] at hstop
      cases hstop
    · rw [hact] at hjump
      cases hjump
  jumps := by
    intro l hl always channel threshold g hact
    obtain ⟨hg, hland, -⟩ := k.linked_settled.target l hl g (by rw [Instruction.target?, hact])
    rcases k.cases_settled hl (by rw [Instruction.isSet, hact]) with ⟨-, hstop⟩ | ⟨_, _, _, _, hjump, hch, hth⟩
    · rw [hact] at hstop
      cases hstop
    · rw [hact] at hjump
      cases hjump
      exact ⟨hch, hth, hg, hland⟩

variable {k} in
theorem realizes {words : List Word} (h : k.addressed.encode = .ok words) :
    k.settled.Realizes k.final s.hardware.polarityMask words where
  timed := k.timed
  board := k.covers_final.1
  covers := k.covers_final.2
  encodable _ hl := encodable_of_encode h hl
  words := words_of_encode h

end Layout

end PulseSequencer
