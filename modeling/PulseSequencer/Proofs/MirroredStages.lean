import PulseSequencer.Proofs.Clean
import PulseSequencer.Proofs.MirroredEmission
import PulseSequencer.Proofs.MirroredPlacement
import PulseSequencer.Proofs.Settled

/-!
# Compilations under other labels

Once the drafts before the jumps are the same under other labels, and the jumps lead to the same places, two
compilations go through the same stages.

* `Score.highTime_pos` : with jumps, only a positive high time of the register gets this far;
* `Score.early_emitted`, `Score.closes_ledger` : up to placement, everything stands before the END;
* `Layout.Parallel` : what two compilations have to share;
* `Layout.Parallel.exists_layout` : then the second one succeeds as well, in the same way.
-/

namespace PulseSequencer

theorem two_le_length_filterMap {α β : Type} {f : α → Option β} {xs : List α} {x y : α} {a b : β} (hx : x ∈ xs)
    (hy : y ∈ xs) (hne : x ≠ y) (hfx : f x = some a) (hfy : f y = some b) : 2 ≤ (xs.filterMap f).length := by
  obtain ⟨before, after, rfl⟩ := List.append_of_mem hx
  have hrest : y ∈ before ++ after := by simpa [hne.symm] using hy
  have hpos := List.length_pos_of_mem (List.mem_filterMap.2 ⟨y, hrest, hfy⟩)
  rw [List.filterMap_append, List.length_append] at hpos ⊢
  rw [List.filterMap_cons_some hfx, List.length_cons]
  omega

variable {s : Sequence} {variant : Binary64} {o : Options}

namespace Opening

variable (k : Opening s variant o)

/-- The start of the sequence is before its END. -/
theorem early_begun : Build.Early k.frame k.begun.draft := by
  have hready := k.ready_begun
  obtain ⟨rs, hend⟩ := hready.ending
  obtain ⟨b₁, hb₁, hbegun⟩ := k.begun_cases
  refine ⟨hready.linked.valid, hready.final, hready.stop, by rw [hend]; rfl, by rw [Board.time, hend]; rfl,
    fun l hl hne => ?_⟩
  rw [hbegun] at hl ⊢
  have hl : l ∈ b₁.draft.list := (List.mem_append.1 hl).resolve_right fun h => hne (List.mem_singleton.1 h)
  change (b₁.draft.board.get l).action ≠ .stop ∧ (b₁.draft.board.get l).block ≠ some Block.endName ∧
    b₁.draft.board.time l < k.frame.terminator
  rcases hb₁ with ⟨-, x, hw⟩ | ⟨-, rfl⟩
  · obtain ⟨-, hroom, -, rfl⟩ := Build.writeId_eq_ok.1 hw
    have hname : Block.startName ≠ Block.endName := by decide
    rcases List.mem_append.1 hl with hl | hl
    · rw [Board.time, List.mem_singleton.1 hl,
        Draft.get_push_of_lt _ (by rw [Draft.size_push]; exact Nat.lt_succ_self _), Draft.get_push_size]
      refine ⟨by simp [Frame.writing], by simpa [Frame.writing] using hname, ?_⟩
      have htwo := k.two_le
      change 0 < k.length - 1
      omega
    · rw [Board.time, List.mem_singleton.1 hl, Draft.get_push_size]
      exact ⟨by simp [Frame.clearing], by simpa [Frame.clearing] using hname, hroom⟩
  · cases hl

theorem early_drawn : Build.Early k.frame k.drawn := by
  refine k.early_begun.draw fun p hp => ?_
  have hlt := k.sound.nonempty p hp
  have hle := Pulse.finish_le_of_channels k.pulses_eq p hp hlt
  change p.interval.start < k.length - 1 ∧ p.interval.finish < k.length - 1
  omega

end Opening

namespace Sketch

variable (k : Sketch s variant o)

theorem early_outlined : Build.Early k.frame k.outlined := by
  obtain ⟨us, hm⟩ := k.merged_outlined
  exact ⟨k.ready_outlined.linked.valid,
    Draft.closes_of_merged k.early_drawn.closes hm k.ready_drawn.linked k.outlines_drawn.inside⟩

theorem early_emitted (hhigh : k.slots ≠ [] → 0 < k.frame.highTime) : Build.Early k.frame k.emitted.draft := by
  have hlength : 0 ≤ k.frame.terminator := by
    have := k.two_le
    change 0 ≤ k.length - 1
    omega
  by_cases hslots : k.slots = []
  · have hemitted := k.emitted_eq
    rw [hslots] at hemitted
    have hemitted : { k.begun with draft := k.outlined } = k.emitted := Except.ok.inj hemitted
    rw [← hemitted]
    exact k.early_outlined
  · refine Build.Early.foldlM_emit (hhigh hslots) (b := { k.begun with draft := k.outlined }) k.early_outlined
      (fun sl hsl => ?_) k.emitted_eq
    have hsl := Sort.mem_sortBy.1 hsl
    exact ⟨(k.unreserved hsl).2, Build.tick_lt_of_slotsOf k.slots_eq sl hsl⟩

/-- The SETs of the start are united only if they are apart. -/
theorem highTime_ne_zero (hj : s.hasJumps = true) : k.frame.highTime ≠ 0 := by
  intro hzero
  obtain ⟨w, hw, c, hc, hne, hgetw, hgetc⟩ := k.exists_start_begun hj
  obtain ⟨us, hm⟩ := k.merged_outlined
  obtain ⟨new, hsets⟩ := k.continues_drawn.leading.sets
  obtain ⟨htimew, hblockw, -⟩ := k.continues_drawn.leading.same w hw
  obtain ⟨htimec, hblockc, -⟩ := k.continues_drawn.leading.same c hc
  rw [Board.time_eq k.begun.draft.board, hgetw] at htimew
  rw [Board.time_eq k.begun.draft.board, hgetc] at htimec
  rw [hgetw] at hblockw
  rw [hgetc] at hblockc
  have hw : w ∈ k.drawn.sets := hsets ▸ List.mem_append_left _ hw
  have hc : c ∈ k.drawn.sets := hsets ▸ List.mem_append_left _ hc
  have hkey : Draft.keyOf k.drawn.board k.drawn.sets c = Draft.keyOf k.drawn.board k.drawn.sets w := by
    rw [Draft.keyOf, Draft.keyOf, htimew, htimec, hblockw, hblockc, Draft.Group.mk.injEq]
    exact ⟨(Int.zero_add _).trans hzero, rfl⟩
  have hgroup := Draft.keyOf_mem_groups (b := k.drawn.board) hw
  have hblock := (hm.heads k.ready_drawn.linked k.outlines_drawn.inside hw).block
  have htwo := two_le_length_filterMap ((Draft.mem_members hgroup).2 ⟨hw, rfl⟩)
    ((Draft.mem_members hgroup).2 ⟨hc, hkey⟩) hne (f := fun l => (k.drawn.board.get l).block) hblockw hblockc
  rw [hblock] at htwo
  have hone : ∀ r : Option String, r.toList.length ≤ 1 := fun r => by cases r <;> simp
  have := hone (k.outlined.board.get (k.drawn.heir k.frame.register.mask w)).block
  omega

end Sketch

namespace Score

variable (k : Score s variant o)

/-- No SET is before tick 0. -/
theorem nonneg_ledger {l : Label} (hl : l ∈ k.ledger.sets) : 0 ≤ k.ledger.board.time l := by
  obtain ⟨us, hm⟩ := k.merged_ledger
  obtain ⟨hlist, hred, hin, -⟩ := k.carried_spec
  obtain ⟨x, hx, rfl⟩ := (hm.mem_sets_iff k.linked_carried hin).1 hl
  rw [hm.time_heir k.linked_carried hin (Draft.mem_sets.1 hx).1, hred.time_eq]
  obtain ⟨hmem, hset⟩ := Draft.mem_sets.1 hx
  rw [hlist] at hmem
  rw [hred.sameLinks.isSet] at hset
  have hx : x ∈ k.merged.sort.sets := Draft.mem_sets.2 ⟨(Draft.perm_sorted _ _).mem_iff.2 hmem, hset⟩
  obtain ⟨-, ⟨hnil, -⟩ | ⟨first, rest, hfirst, hzero, -⟩⟩ := Draft.inheritOutputs_eq_ok k.carried_eq
  · rw [hnil] at hx
    cases hx
  · have hsorted :=
      (Draft.pairwise_time_sorted k.merged.board k.merged.list).filter fun l => (k.merged.board.get l).isSet
    change k.merged.sort.sets.Pairwise _ at hsorted
    rw [hfirst] at hx hsorted
    rcases List.mem_cons.1 hx with rfl | hx
    · exact hzero.ge
    · exact hzero ▸ (List.pairwise_cons.1 hsorted).1 x hx

/-- A sequence with jumps needs ticks to clear the register in. -/
theorem highTime_pos (hj : s.hasJumps = true) : 0 < k.frame.highTime := by
  have hne := k.highTime_ne_zero hj
  obtain ⟨l, hl, -, htime⟩ := (k.marked_emitted (k.marked_begun hj).2).of_descends k.descends
  have := k.nonneg_ledger hl
  omega

theorem early_emitted : Build.Early k.frame k.emitted.draft := by
  refine k.toSketch.early_emitted fun hslots => k.highTime_pos ?_
  obtain ⟨sl, hsl⟩ := List.exists_mem_of_ne_nil _ hslots
  obtain ⟨e, he, -⟩ := k.exists_jump hsl
  rw [Sequence.hasJumps, Bool.not_eq_true', List.isEmpty_eq_false_iff]
  exact List.ne_nil_of_mem he

theorem closes_joined : k.joined.board.Closes k.frame.final (k.length - 1) k.joined.list := by
  obtain ⟨us, hm⟩ := k.merged_joined
  exact Draft.closes_of_merged k.early_emitted.closes hm k.ready_emitted.linked k.outlines_emitted.inside

theorem closes_started : k.started.board.Closes k.frame.final (k.length - 1) k.started.list := by
  have hsorted : k.joined.sort.board.Closes k.frame.final (k.length - 1) k.joined.sort.list :=
    k.closes_joined.of_redriven (.refl _) (Draft.perm_sorted _ _)
  have htwo := k.two_le
  have hpos : (0 : Int) < k.length - 1 := by omega
  exact (Build.Early.push (f := k.frame) ⟨k.linked_joined.sort.valid, hsorted⟩ (i := k.frame.starting) rfl nofun
    hpos).closes

theorem closes_merged : k.merged.board.Closes k.frame.final (k.length - 1) k.merged.list := by
  obtain ⟨us, hm⟩ := k.merged_merged
  exact Draft.closes_of_merged k.closes_started hm k.continues_started.linked k.outlines_started.inside

theorem closes_carried : k.carried.board.Closes k.frame.final (k.length - 1) k.carried.list := by
  obtain ⟨hlist, hred, -, -⟩ := k.carried_spec
  exact k.closes_merged.of_redriven hred (List.Perm.of_eq hlist)

/-- What is placed stands before the END. -/
theorem closes_ledger : k.ledger.board.Closes k.frame.final (k.length - 1) k.ledger.list := by
  obtain ⟨us, hm⟩ := k.merged_ledger
  exact Draft.closes_of_merged k.closes_carried hm k.linked_carried k.carried_spec.2.2.1

end Score

/-- Placement leaves the END where it is, and everything else before it. -/
theorem Layout.closes_placed [Collation] (k : Layout s variant o) :
    k.placed.board.Closes k.frame.final (k.length - 1) k.placed.list := by
  have hc := k.closes_ledger
  have hperm := k.placement.perm
  have hretimed := k.placement.retimed
  have htime : k.placed.board.time k.frame.final = k.length - 1 := by
    rw [← k.time_settled]
    exact k.time_end
  refine ⟨hperm.mem_iff.2 hc.mem, by rw [hretimed.action_eq, hc.stop], by rw [hretimed.block_eq, hc.block], htime,
    fun l hl hne => ?_⟩
  obtain ⟨hact, hblock, -⟩ := hc.other l (hperm.mem_iff.1 hl) hne
  rw [hretimed.action_eq, hretimed.block_eq]
  refine ⟨hact, hblock, ?_⟩
  obtain ⟨init, hlist⟩ := k.last_settled
  rw [k.settled_spec.1] at hlist
  have hinc := k.placement.increasing
  rw [hlist] at hl hinc
  have hmem : l ∈ init := (List.mem_append.1 hl).resolve_right fun h => hne (List.mem_singleton.1 h)
  rw [← htime]
  exact (List.pairwise_append.1 hinc).2.2 l hmem _ List.mem_cons_self

/-! ## Side by side -/

/-- Two compilations that are the same up to the jumps, apart from labels and a later END in the second one. -/
structure Layout.Parallel [Collation] {s' : Sequence} {variant' : Binary64} {o' : Options} (φ : Label → Label)
    (S : Set Label) (k : Layout s variant o) (k' : Opening s' variant' o') (outlined' : Draft) (slots' : List Slot) :
    Prop where
  outlined_eq : (k'.drawn.mergeSets k'.frame.register.mask).outcome = .ok outlined'
  slots_eq : (Build.slotsOf k'.frame).outcome = .ok slots'
  frame : k.frame.Mirrored φ S k.slots slots' k'.frame
  nextId : k'.begun.nextId = k.begun.nextId
  outlined : k.outlined.Mirrored φ (k'.length - 1) S outlined'
  slots : List.Forall₂ Slot.Mirrored (Sort.sortBy (fun a b : Slot => decide (a.tick ≤ b.tick)) k.slots)
    (Sort.sortBy (fun a b : Slot => decide (a.tick ≤ b.tick)) slots')
  fits : k'.length ≤ TickLine.maxLength

namespace Layout.Parallel

variable [Collation] {s' : Sequence} {variant' : Binary64} {o' : Options} {φ : Label → Label} {S : Set Label}
  {k : Layout s variant o} {k' : Opening s' variant' o'} {outlined' : Draft} {slots' : List Slot}

theorem exists_score (h : Parallel φ S k k' outlined' slots') :
    ∃ k₁ : Score s' variant' o', k₁.toOpening = k' ∧ k.ledger.Mirrored φ (k'.length - 1) S k₁.ledger := by
  have hf := h.frame
  have he : k.length - 1 ≤ k'.length - 1 := hf.terminator
  have hbuild : Build.Mirrored φ (k'.length - 1) S { k.begun with draft := k.outlined }
      { k'.begun with draft := outlined' } := ⟨h.outlined, h.nextId⟩
  obtain ⟨emitted', hemitted', hm⟩ := hbuild.foldlM_emit hf h.slots k.emitted_eq
  obtain ⟨joined', hjoined', hj⟩ := hm.draft.mergeSets k.ready_emitted.linked k.outlines_emitted.inside
    k.early_emitted.closes he k.joined_eq
  have hstarting : k'.frame.starting = k.frame.starting := by
    rw [Frame.starting, Frame.starting, hf.state, hf.register]
  have hinside : Bits.without (Pulse.stateAt k'.frame.pulses 0) k'.frame.register.complement = 0 := by
    rw [hf.state, hf.register]
    exact k.starting_inside
  have hstarted := (hj.sort k.closes_joined he).push (i := k.frame.starting) rfl rfl
  obtain ⟨merged', hmerged', hmg⟩ := hstarted.mergeSets k.continues_started.linked k.outlines_started.inside
    k.closes_started he k.merged_eq
  obtain ⟨carried', hcarried', hca⟩ := hmg.inheritOutputs k.closes_merged he k.carried_eq
  obtain ⟨ledger', hledger', hl⟩ := hca.mergeSets k.linked_carried k.carried_spec.2.2.1 k.closes_carried he
    k.ledger_eq
  rw [← hf.register] at hjoined' hmerged' hcarried' hledger'
  rw [← hstarting] at hmerged'
  exact ⟨{
    k' with
    outlined := outlined', slots := slots', emitted := emitted', joined := joined', merged := merged'
    carried := carried', ledger := ledger', outlined_eq := h.outlined_eq, slots_eq := h.slots_eq
    emitted_eq := hemitted', joined_eq := hjoined'
    starting_inside := hinside, merged_eq := hmerged', carried_eq := hcarried', ledger_eq := hledger' }, rfl, hl⟩

/-- The second compilation reaches all stages, and they are the same under other labels. -/
theorem exists_layout (h : Parallel φ S k k' outlined' slots') :
    ∃ k₁ : Layout s' variant' o', k₁.toOpening = k' ∧ k.settled.Mirrored φ (k'.length - 1) S k₁.settled := by
  have he : k.length - 1 ≤ k'.length - 1 := h.frame.terminator
  have hfits := h.fits
  obtain ⟨k₁, rfl, hl⟩ := h.exists_score
  have hplace : (k.ledger.place (k.length - 1 + 1)).outcome = .ok k.placed := by
    rw [sub_add_cancel]
    exact k.placed_eq
  obtain ⟨placed', hplaced', hp⟩ := hl.place k.linked_ledger k.closes_ledger he (by omega) hplace
  rw [sub_add_cancel] at hplaced'
  -- the SET of tick 0 is still there
  have hstart : ∃ l ∈ placed'.sets, placed'.board.time l = 0 := by
    obtain ⟨l, rest, hlist, hset, htime⟩ := k.first_settled
    have hmem : l ∈ k.placed.list := by
      rw [← k.settled_spec.1, hlist]
      exact List.mem_cons_self
    rw [k.time_settled] at htime
    rw [k.settled_spec.2.1.sameLinks.isSet] at hset
    have hcell := hp.board.cell l (hp.live l hmem)
    refine ⟨φ l, Draft.mem_sets.2 ⟨?_, ?_⟩, ?_⟩
    · rw [hp.list]
      exact List.mem_map.2 ⟨l, hmem, rfl⟩
    · rw [hcell, Instruction.isSet_mirror, hset]
    · rw [Board.time, hcell, Instruction.time_mirror (Instruction.ne_stop_of_isSet hset)]
      exact htime
  obtain ⟨k₂, rfl, rfl⟩ := k₁.exists_layout hplaced' hstart
  obtain ⟨settled', hsettled', hs⟩ := hp.inheritOutputs k.closes_placed he k.settled_eq
  rw [← h.frame.register] at hsettled'
  cases k₂.settled_eq.symm.trans hsettled'
  exact ⟨k₂, rfl, hs⟩

end Layout.Parallel

end PulseSequencer
