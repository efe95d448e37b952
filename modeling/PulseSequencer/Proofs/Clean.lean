import PulseSequencer.Proofs.Decisions
import PulseSequencer.Proofs.Drafting
import PulseSequencer.Proofs.Settling
import PulseSequencer.Proofs.Static

/-!
# Compilation without internal faults

* `Sort.exists_sortBy_eq_cons`, `Block.exists_collect_eq_cons` : what comes first in an order;
* `Slot.Displaces` : a jump whose JUMPs take the start of the program from the block of the first control write;
* `Score.collect_first` : without such a jump that block is the first one, so that there is a SET at tick 0;
* `Sequence.Countable` : a length in ticks that binary64 numbers tell apart;
* `Sequence.clean_compile` : a compilation of such a sequence never ends in an internal fault.
-/

namespace PulseSequencer

/-! ## The order of blocks -/

theorem Sort.exists_sortBy_eq_cons {α : Type} {le : α → α → Bool} {x : α} {xs : List α} (hx : x ∈ xs)
    (h : ∀ y ∈ xs, y ≠ x → le x y = true ∧ le y x = false) : ∃ rest, sortBy le xs = x :: rest := by
  induction xs with
  | nil => cases hx
  | cons a xs ih =>
    have hle : ∀ y ∈ xs, y ≠ x → le x y = true ∧ le y x = false := fun y hy => h y (List.mem_cons_of_mem _ hy)
    change ∃ rest, insertBy le a (sortBy le xs) = x :: rest
    by_cases hax : a = x
    · subst hax
      cases hs : sortBy le xs with
      | nil => exact ⟨[], rfl⟩
      | cons y ys =>
        have hy : y ∈ xs := mem_sortBy.1 (hs ▸ List.mem_cons_self)
        unfold insertBy
        split
        · exact ⟨_, rfl⟩
        · rename_i hnot
          by_cases hya : y = a
          · exact hya ▸ ⟨_, rfl⟩
          · exact absurd (hle y hy hya).1 hnot
    · obtain ⟨rest, hrest⟩ := ih ((List.mem_cons.1 hx).resolve_left (Ne.symm hax)) hle
      rw [hrest]
      unfold insertBy
      rw [if_neg (by rw [(h a List.mem_cons_self hax).2]; exact Bool.false_ne_true)]
      exact ⟨_, rfl⟩

namespace Block

variable {b : Board} {labels : List Label} {x : Block}

/-- A block that is before all others is the first one. -/
theorem exists_collect_eq_cons [Collation] (hx : x ∈ collect b labels)
    (h : ∀ y ∈ collect b labels, y.name ≠ x.name → before x y = true ∧ before y x = false) :
    ∃ rest, collect b labels = x :: rest := by
  refine Sort.exists_sortBy_eq_cons (Sort.mem_sortBy.1 hx) fun y hy hyx => ?_
  have hy' : y ∈ collect b labels := Sort.mem_sortBy.2 hy
  exact h y hy' fun hname => hyx (List.inj_on_of_nodup_map (nodup_collect b labels) hy' hx hname)

end Block

/-! ## The block of the start -/

/-- The JUMPs of a jump without a pass stand at the ticks from 0 on and make a block that is before that of the
start. -/
def Slot.Displaces [Collation] (f : Frame) (sl : Slot) : Prop :=
  ∃ ladder, sl.jump.mergedLadder = .ok ladder ∧ 2 ≤ ladder.length ∧ (∀ r ∈ ladder, r.target ≠ .pass) ∧
    sl.tick + 1 = ladder.length ∧
    (sl.tick < f.highTime ∨ sl.tick = f.highTime ∧ (Collation.compare sl.jump.name Block.startName).isLE = true)

namespace Build

variable {f : Frame} {slots : List Slot} {sl : Slot} {marker : Option Label} {b : Board}

theorem jumpRungs_of_no_pass {ladder : Ladder} (h : ∀ r ∈ ladder, r.target ≠ .pass) :
    jumpRungs ladder = ladder.reverse := by
  unfold jumpRungs
  split
  · rename_i r rest hrev
    have hr : r ∈ ladder := List.mem_reverse.1 (hrev ▸ List.mem_cons_self)
    rw [if_neg (by simp [h r hr]), hrev]
  · rename_i hrev
    exact hrev.symm

/-- What the JUMPs of a block take without a marker in it: all ticks from that of the jump back, one for every rung. -/
theorem Branches.ticks_of_no_marker {d : Draft} {ladder : Ladder} {xs : List Label}
    (h : Branches f slots sl ladder xs d) (hnonneg : ∀ l ∈ d.list, 0 ≤ d.board.time l) {x : Label} (hx : x ∈ xs)
    (hblock : (d.board.get x).block = some sl.jump.name) (hzero : d.board.time x = 0)
    (hfree : ∀ m ∈ d.sets, (d.board.get m).block ≠ some sl.jump.name) :
    (2 ≤ ladder.length ∧ (∀ r ∈ ladder, r.target ≠ .pass) ∧ sl.tick + 1 = ladder.length) ∧
      ∃ y ∈ d.list, (d.board.get y).block = some sl.jump.name ∧ d.board.time y = sl.tick := by
  have hnot := (h.of_block hx hblock).2
  obtain ⟨marker, hmarker, hpass, hrow⟩ := h.row hnot
  have hno : ∀ r ∈ ladder, r.target ≠ .pass := fun r hr hr' => by
    obtain ⟨m, rfl⟩ := hpass ⟨r, hr, hr'⟩
    obtain ⟨hm, id, rs, hcell⟩ := hmarker m rfl
    exact hfree m (Draft.mem_sets.2 ⟨hm, by rw [hcell]; rfl⟩) (by rw [hcell]; rfl)
  rw [jumpRungs_of_no_pass hno] at hrow
  have hlength : xs.length = ladder.length := by rw [← hrow.forall₂.length_eq, List.length_reverse]
  have htick : ∀ i < ladder.length, ∃ y ∈ xs, d.board.time y = sl.tick - i := fun i hi =>
    have hi' : i < xs.length := hlength ▸ hi
    ⟨xs[i], List.getElem_mem hi', hrow.time_eq (List.getElem?_eq_getElem hi')⟩
  obtain ⟨i, hi, rfl⟩ := List.mem_iff_getElem.1 hx
  have hi0 := hrow.time_eq (List.getElem?_eq_getElem hi)
  obtain ⟨y, hy, hylast⟩ := htick (ladder.length - 1) (by omega)
  have hylast0 := hnonneg y (h.mem y hy)
  obtain ⟨z, hz, hzfirst⟩ := htick 0 (by omega)
  have htwo : 2 ≤ ladder.length := by
    rcases ladder with _ | ⟨r, _ | ⟨r', rest⟩⟩
    · exact absurd hi (by rw [hlength]; simp)
    · exact absurd rfl (hnot r)
    · simp
  exact ⟨⟨htwo, hno, by omega⟩, z, h.mem z hz, hrow.block z hz, by rw [hzfirst]; simp⟩

end Build

/-- The draft has a SET of the start at a tick. -/
def Draft.Marked (tick : Int) (d : Draft) : Prop :=
  ∃ l ∈ d.sets, (d.board.get l).block = some Block.startName ∧ d.board.time l = tick

namespace Draft.Marked

variable {tick : Int} {d d' : Draft}

theorem of_leading (h : d.Marked tick) (hlead : d.Leading d') : d'.Marked tick := by
  obtain ⟨l, hl, hblock, htime⟩ := h
  obtain ⟨new, hnew⟩ := hlead.sets
  obtain ⟨htime', hblock', -⟩ := hlead.same l hl
  exact ⟨l, hnew ▸ List.mem_append_left _ hl, hblock'.trans hblock, htime'.trans htime⟩

theorem of_descends {heir : Label → Label} (h : d.Marked tick) (hdesc : d.Descends d' heir) : d'.Marked tick := by
  obtain ⟨l, hl, hblock, htime⟩ := h
  obtain ⟨hmem, hset⟩ := mem_sets.1 hl
  exact ⟨heir l, mem_sets.2 ⟨hdesc.mem l hmem, (hdesc.isSet l hmem).trans hset⟩, hdesc.block l hmem _ hblock,
    (hdesc.time l hmem).trans htime⟩

end Draft.Marked

variable {s : Sequence} {v : Nat} {o : Options}

/-- The start writes the register and clears it. -/
theorem Opening.exists_start_begun {variant : Binary64} (k : Opening s variant o) (hj : s.hasJumps = true) :
    ∃ w ∈ k.begun.draft.sets, ∃ c ∈ k.begun.draft.sets, w ≠ c ∧
      k.begun.draft.board.get w = k.frame.writing 1 0 (some Block.startName) ∧
      k.begun.draft.board.get c = k.frame.clearing 0 (some Block.startName) := by
  obtain ⟨b, ⟨-, l, hwrite⟩ | ⟨hno, -⟩, hbegun⟩ := k.begun_cases
  swap
  · rw [hno] at hj
    cases hj
  obtain ⟨-, -, hl, rfl⟩ := Build.writeId_eq_ok.1 hwrite
  have hget : k.begun.draft.board.get l = k.frame.writing 1 0 (some Block.startName) := by
    rw [hbegun, hl]
    exact (Draft.get_push_of_lt _ (by rw [Draft.size_push]; exact Nat.lt_succ_self _)).trans (Draft.get_push_size _ _)
  have hget' : k.begun.draft.board.get (l + 1) = k.frame.clearing 0 (some Block.startName) := by
    rw [hbegun, hl, ← Draft.size_push]
    exact Draft.get_push_size _ _
  refine ⟨l, Draft.mem_sets.2 ⟨?_, by rw [hget]; rfl⟩, l + 1, Draft.mem_sets.2 ⟨?_, by rw [hget']; rfl⟩,
    (Nat.lt_succ_self l).ne, hget, hget'⟩
  · rw [hbegun, hl]
    exact List.mem_append_left _ (List.mem_append_left _ (List.mem_append_right _ List.mem_cons_self))
  · rw [hbegun, hl]
    refine List.mem_append_left _ (List.mem_append_right _ ?_)
    rw [Draft.size_push]
    exact List.mem_cons_self

theorem Opening.marked_begun {variant : Binary64} (k : Opening s variant o) (hj : s.hasJumps = true) :
    k.begun.draft.Marked 0 ∧ k.begun.draft.Marked k.frame.highTime := by
  obtain ⟨w, hw, c, hc, -, hgetw, hgetc⟩ := k.exists_start_begun hj
  refine ⟨⟨w, hw, by rw [hgetw]; rfl, by rw [Board.time, hgetw]; rfl⟩, c, hc, by rw [hgetc]; rfl, ?_⟩
  rw [Board.time, hgetc]
  exact Int.zero_add _

theorem Sketch.marked_emitted {variant : Binary64} (k : Sketch s variant o) {tick : Int}
    (h : k.begun.draft.Marked tick) : k.emitted.draft.Marked tick := by
  obtain ⟨us, hm⟩ := k.merged_outlined
  obtain ⟨own, ⟨names, jumps, -, hcont⟩, -⟩ := k.branches
  have hdrawn : k.drawn.Marked tick := h.of_leading k.continues_drawn.leading
  exact (hdrawn.of_descends (hm.descends k.ready_drawn.linked k.outlines_drawn.inside)).of_leading hcont.leading

namespace Score

variable (k : Score s (.ofNat v) o)

theorem staggered_ledger (ho : o.complaint? = none) :
    ∀ x ∈ k.ledger.list, ∀ y ∈ k.ledger.list, ∀ n, (k.ledger.board.get x).block = some n →
      (k.ledger.board.get y).block = some n → k.ledger.board.time x = k.ledger.board.time y → x = y :=
  (k.neat_emitted ho).staggered_of_descends k.descends

/-- The members of a block, as they were emitted. -/
theorem exists_emitted [Collation] {y : Block} (hy : y ∈ Block.collect k.ledger.board k.ledger.list) {l : Label}
    (hl : l ∈ y.members) :
    ∃ x ∈ k.emitted.draft.list, (k.emitted.draft.board.get x).block = some y.name ∧
      k.emitted.draft.board.time x = k.ledger.board.time l := by
  rw [Block.mem_members_iff hy] at hl
  obtain ⟨x, hx, rfl, hblock⟩ := k.descends.blocked l hl.1 _ hl.2
  exact ⟨x, hx, hblock, (k.descends.time x hx).symm⟩

/-- The block of a name begins after tick 0, or ends after the block of the start, or at its tick with a later name. -/
theorem late_block [Collation] (ho : o.complaint? = none) (hroom : ∀ sl ∈ k.slots, ¬ sl.Displaces k.frame) {y : Block}
    (hy : y ∈ Block.collect k.ledger.board k.ledger.list) (hname : y.name ≠ Block.startName) :
    0 < y.start ∨ y.start = 0 ∧ (k.frame.highTime < y.finish ∨
      k.frame.highTime ≤ y.finish ∧ (Collation.compare y.name Block.startName).isLE = false) := by
  have hneat := k.neat_emitted ho
  have hspans := Block.spans_of_mem_collect hy
  have hfinish : ∀ l ∈ k.emitted.draft.list, (k.emitted.draft.board.get l).block = some y.name →
      k.emitted.draft.board.time l ≤ y.finish := fun l hl hn => by
    rw [← k.descends.time l hl]
    refine (hspans.bounds _ (hspans.members.mem_iff.2 (List.mem_filter.2 ⟨k.descends.mem l hl, ?_⟩))).2
    rw [k.descends.block l hl _ hn, beq_self_eq_true]
  obtain ⟨⟨first, hfirst, hstart⟩, -⟩ := Block.exists_bounds hy
  obtain ⟨x, hx, hblock, htime⟩ := k.exists_emitted hy hfirst
  rw [hstart] at htime
  have hnonneg := hneat.nonneg x hx
  have hhigh := (k.proper ho).high
  by_cases hzero : y.start = 0
  swap
  · exact .inl (by omega)
  refine .inr ⟨hzero, ?_⟩
  rcases k.block_cases hx hblock with hset | ⟨-, hend⟩ | ⟨sl, hsl, hn, ladder, xs, hladder, hown, hbranches⟩
  · -- a SET of a jump's block comes after a JUMP of it
    rcases hneat.seated x (Draft.mem_sets.2 ⟨hx, hset⟩) _ hblock with ⟨hn, -⟩ | ⟨sl, hsl, -, hlt, -⟩
    · exact absurd hn hname
    · have := Build.nonneg_of_slotsOf k.slots_eq sl hsl
      omega
  · have := k.two_le
    omega
  · rw [hn] at hblock
    by_cases hfree : ∀ m ∈ k.emitted.draft.sets, (k.emitted.draft.board.get m).block ≠ some sl.jump.name
    · obtain ⟨⟨htwo, hno, htick⟩, z, hz, hzblock, hztime⟩ :=
        hbranches.ticks_of_no_marker hneat.nonneg hown hblock (htime.trans hzero) hfree
      have hle := hfinish z hz (by rw [hzblock, hn])
      by_contra hcon
      refine hroom sl hsl ⟨ladder, hladder, htwo, hno, htick, ?_⟩
      rw [hn] at hcon
      by_cases hlt : sl.tick < k.frame.highTime
      · exact .inl hlt
      · refine .inr ⟨by omega, ?_⟩
        by_contra hcollate
        exact hcon (.inr ⟨by omega, by simpa using hcollate⟩)
    · -- the marker is cleared after the high time
      push Not at hfree
      obtain ⟨m, hm, hmblock⟩ := hfree
      rcases hneat.seated m hm _ hmblock with ⟨hm, -⟩ | ⟨sl', hsl', -, -, m', hm', hmblock', hmtime⟩
      · exact absurd (hn.trans hm) hname
      · have := hfinish m' (Draft.mem_sets.1 hm').1 (by rw [hmblock', hn])
        have := Build.nonneg_of_slotsOf k.slots_eq sl' hsl'
        exact .inl (by omega)

/-- The block of the start is the first one. -/
theorem collect_first [Collation] (ho : o.complaint? = none) (hroom : ∀ sl ∈ k.slots, ¬ sl.Displaces k.frame)
    (hj : s.hasJumps = true) : ∃ x rest l, Block.collect k.ledger.board k.ledger.list = x :: rest ∧ l ∈ x.members ∧
      l ∈ k.ledger.sets ∧ k.ledger.board.time l = 0 := by
  obtain ⟨l, hl, hblock, htime⟩ := (k.marked_emitted (k.marked_begun hj).1).of_descends k.descends
  obtain ⟨x, hx, hname, hmem⟩ := Block.exists_of_block (Draft.mem_sets.1 hl).1 hblock
  obtain ⟨⟨first, hfirst, hstart⟩, last, hlast, hfinish⟩ := Block.exists_bounds hx
  have hzero : x.start = 0 := by
    obtain ⟨y, hy, -, hytime⟩ := k.exists_emitted hx hfirst
    have := (k.neat_emitted ho).nonneg y hy
    have := ((Block.spans_of_mem_collect hx).bounds l hmem).1
    omega
  have hhigh : x.finish ≤ k.frame.highTime := by
    obtain ⟨y, hy, hyblock, hytime⟩ := k.exists_emitted hx hlast
    have hother : ∀ sl ∈ k.slots, Block.startName ≠ sl.jump.name := fun sl hsl =>
      (k.unreserved hsl).1.symm
    rw [hname] at hyblock
    rcases k.block_cases hy hyblock with hset | ⟨hend, -⟩ | ⟨sl, hsl, hn, -⟩
    · rcases (k.neat_emitted ho).seated y (Draft.mem_sets.2 ⟨hy, hset⟩) _ hyblock with ⟨-, hle⟩ | ⟨sl, hsl, hn, -⟩
      · omega
      · exact absurd hn (hother sl hsl)
    · exact absurd hend (by decide)
    · exact absurd hn (hother sl hsl)
  obtain ⟨rest, hrest⟩ := Block.exists_collect_eq_cons hx fun y hy hyx => by
    rw [hname] at hyx
    simp only [Block.before, hzero, hname, Bool.or_eq_true, Bool.and_eq_true, decide_eq_true_eq, beq_iff_eq,
      ← Bool.not_eq_true, not_or, not_and]
    rcases k.late_block ho hroom hy hyx with hlt | ⟨hystart, hlt | ⟨hle, hcollate⟩⟩
    · exact ⟨.inl hlt, by omega, fun h => by omega⟩
    · exact ⟨.inr ⟨hystart.symm, .inl (by omega)⟩, by omega, fun _ => ⟨by omega, fun h => by omega⟩⟩
    · refine ⟨.inr ⟨hystart.symm, ?_⟩, by omega,
        fun _ => ⟨by omega, fun _ => by rw [hcollate]; exact Bool.false_ne_true⟩⟩
      rcases hle.lt_or_eq with hlt | heq
      · exact .inl (by omega)
      · by_cases hx' : x.finish < y.finish
        · exact .inl hx'
        · exact .inr ⟨by omega, Block.isLE_of_not_isLE hcollate⟩
  exact ⟨x, rest, l, hrest, hmem, hl, htime⟩

/-- Placement leaves a SET at tick 0. -/
theorem exists_start_placed [Collation] (ho : o.complaint? = none) (hroom : ∀ sl ∈ k.slots, ¬ sl.Displaces k.frame)
    (hj : s.hasJumps = true) {placed : Draft} (h : (k.ledger.place k.length).outcome = .ok placed) :
    ∃ l ∈ placed.sets, placed.board.time l = 0 := by
  obtain ⟨x, rest, l, hcollect, hmem, hl, htime⟩ := k.collect_first ho hroom hj
  have hplaced := Draft.placed_of_place k.linked_ledger.valid k.linked_ledger.nodup h
  obtain ⟨⟨ls, b⟩, hplace, h⟩ := Attempt.bind_eq_ok.1 h
  cases h
  obtain ⟨hl, hset⟩ := Draft.mem_sets.1 hl
  refine ⟨l, Draft.mem_sets.2 ⟨hplaced.perm.mem_iff.2 hl, ?_⟩, ?_⟩
  · rw [hplaced.retimed.sameLinks.isSet, hset]
  · exact (Board.time_of_first k.linked_ledger.valid k.linked_ledger.nodup hplace hcollect l hmem).trans htime

theorem meets_complete [Collation] (ho : o.complaint? = none)
    (hstart : ∀ placed, (k.ledger.place k.length).outcome = .ok placed → ∃ l ∈ placed.sets, placed.board.time l = 0) :
    (k.started.complete k.frame.register.mask k.frame.register.complement k.length).Meets fun _ =>
      Nonempty (Layout s (.ofNat v) o) := by
  refine Attempt.meets_bind_ok k.merged_eq ?_
  refine Attempt.meets_bind_ok (Attempt.ofExcept_eq_ok.2 k.carried_eq) ?_
  refine Attempt.meets_bind_ok k.ledger_eq ?_
  have hplace : (k.ledger.place k.length).Clean :=
    (Board.clean_place k.linked_ledger.valid k.linked_ledger.nodup (k.staggered_ledger ho)).bind fun _ _ =>
      Attempt.meets_pure trivial
  refine hplace.bind fun placed h => ?_
  obtain ⟨k', rfl, rfl⟩ := k.exists_layout h (hstart placed h)
  refine Attempt.meets_bind_ok (Attempt.ofExcept_eq_ok.2 k'.settled_eq) ?_
  refine Attempt.meets_bind_ok (Attempt.ofExcept_eq_ok.2 k'.filled_eq) ?_
  refine Attempt.meets_bind_ok k'.final_eq ?_
  simp only
  rw [if_neg (not_not.2 k'.final_length)]
  exact Attempt.meets_pure ⟨k'⟩

end Score

/-! ## Words -/

/-- Encoding finds fault with the fields of an instruction only, if the target of a JUMP knows of it. -/
theorem Board.clean_operation {b : Board} {l : Label}
    (h : ∀ g, (b.get l).target? = some g → l ∈ (b.get g).reachedBy ∧ ∃ address, (b.get g).address = some address) :
    Except.Clean (b.operation l) := by
  unfold Board.operation
  simp only
  split
  · split
    · exact Except.meets_ok trivial
    · exact Except.meets_error (by simp [overflow])
  · split
    · exact Except.meets_ok trivial
    · exact Except.meets_error (by simp [overflow])
  · rename_i always channel threshold g hact
    obtain ⟨hreached, address, haddress⟩ := h g (by rw [Instruction.target?, hact])
    rw [if_neg (by simp [hreached]), haddress]
    simp only
    split
    · exact Except.meets_error (by simp [overflow])
    split
    · exact Except.meets_error (by simp [overflow])
    split
    · exact Except.meets_error (by simp [overflow])
    · exact Except.meets_ok trivial
  · exact Except.meets_ok trivial

theorem Layout.clean_encode [Collation] {variant : Binary64} (k : Layout s variant o) :
    Except.Clean k.addressed.encode := by
  refine Except.clean_mapM fun l hl => ?_
  rw [k.addressed_final.list] at hl
  have hop : Except.Clean (k.addressed.board.operation l) := Board.clean_operation fun g hg => by
    rw [k.addressed_final.get l hl] at hg
    have htarget : (k.final.board.get l).target? = some g := by
      cases hset : (k.final.board.get l).isSet with
      | true =>
        rw [Instruction.polarize, if_pos hset] at hg
        cases hg
      | false =>
        rwa [Instruction.polarize, if_neg (by rw [hset]; exact Bool.false_ne_true)] at hg
    rcases k.covers_final.2.mem_or_target? l hl with hsettled | hnone
    · rw [k.get_final hsettled] at htarget
      obtain ⟨hmem, -, hreached⟩ := k.linked_settled.target l hsettled g htarget
      rw [k.addressed_final.get g (k.covers_final.2.subset g hmem), k.get_final hmem]
      exact ⟨by simpa [Draft.reachedBy_polarize] using hreached, _, rfl⟩
    · rw [hnone] at htarget
      cases htarget
  unfold Board.encode
  cases hx : k.addressed.board.operation l with
  | ok op => exact Except.meets_ok trivial
  | error f => exact Except.meets_error (hop.fault f hx)

/-! ## Compilations -/

theorem Board.length_le_of_place [Collation] {b b' : Board} {length : Int} {ls ls' : List Label}
    (h : (b.place length ls).outcome = .ok (ls', b')) : length ≤ TickLine.maxLength := by
  obtain ⟨⟨xs, b₁⟩, -, h⟩ := Attempt.bind_eq_ok.1 h
  simp only at h
  split at h
  · cases h
  · omega

namespace Sequence

theorem clean_ticks (t : Timeline) (o : Options) : (ticks t o).Clean := by
  unfold ticks
  simp only
  split
  · exact Attempt.meets_pure trivial
  · refine (Attempt.meets_ofExcept t.clean_latest).bind fun latest _ _ => ?_
    split
    · exact (Attempt.clean_record _).bind fun _ _ => Attempt.meets_pure trivial
    · exact Attempt.meets_pure trivial

/-- A variant is not longer than `2 ^ 53` ticks, up to which binary64 numbers tell them apart. A length that is not
finite, or no number, is longer. -/
def Countable (s : Sequence) (variant : Binary64) (o : Options) : Prop :=
  ∀ t length, Timeline.ofVariant s variant = .ok t → (ticks t o).outcome = .ok length → length ≤ 2 ^ 53

/-- A compilation never ends in an internal fault, nor in a search without an end, unless its ticks are not told apart
or the JUMPs of a jump displace the start. -/
theorem clean_compile [Collation] (ho : o.complaint? = none) (hticks : s.Countable (.ofNat v) o)
    (hroom : ∀ k : Sketch s (.ofNat v) o, ∀ sl ∈ k.slots, ¬ sl.Displaces k.frame) : (s.compile (.ofNat v) o).Clean := by
  by_cases hlayout : Nonempty (Layout s (.ofNat v) o)
  · obtain ⟨k⟩ := hlayout
    have hencode := Attempt.meets_ofExcept k.clean_encode
    refine ⟨fun _ _ => trivial, fun e he => ?_⟩
    rw [k.outcome_compile] at he
    cases hx : (Attempt.ofExcept k.addressed.encode).outcome with
    | ok words =>
      rw [hx] at he
      cases he
    | error e' =>
      rw [hx] at he
      cases he
      exact hencode.failure e hx
  refine s.clean_verify.bind fun _ hverify => ?_
  unfold assemble
  simp only
  split
  · exact Attempt.meets_fail (by simp [invalid])
  rename_i hvariant
  refine (Attempt.meets_ofExcept (Timeline.clean_ofVariant s _)).bind fun t ht _ => ?_
  refine (clean_ticks t o).bind fun length hlength => ?_
  split
  · exact Attempt.meets_fail (by simp)
  rename_i htwo
  have ht := Attempt.ofExcept_eq_ok.1 ht
  refine (meets_draft ho hverify (by simpa using hvariant) ht hlength htwo (hticks t length ht hlength)).bind
    fun r _ ⟨k, hk, hklength, hr⟩ => ?_
  subst hr hklength
  refine (k.meets_complete ho fun placed hplaced => ?_).bind fun _ _ hk => absurd hk hlayout
  cases hj : s.hasJumps with
  | true => exact k.exists_start_placed ho (hroom k.toSketch) hj hplaced
  | false =>
    -- without jumps, a sequence that can be placed at all has all stages
    obtain ⟨⟨ls, b⟩, hplace, -⟩ := Attempt.bind_eq_ok.1 hplaced
    obtain ⟨k', -⟩ := Layout.exists_static hverify hj (by simpa using hvariant) k.timeline_eq k.sequence_eq k.resolves
      k.length_eq (not_lt.1 htwo) (Board.length_le_of_place hplace)
    exact absurd ⟨k'⟩ hlayout

end Sequence

theorem Bench.gated_clean : gated.Countable (.ofNat 0) quick ∧
    (∀ k : Sketch gated (.ofNat 0) quick, ∀ sl ∈ k.slots, ¬ sl.Displaces k.frame) ∧
    (gated.compile (.ofNat 0) quick).Clean := by
  have hticks : gated.Countable (.ofNat 0) quick := by
    intro t length ht hlength
    have hforty : (Timeline.ofVariant gated (.ofNat 0)).toOption.map (fun t => (Sequence.ticks t quick).outcome) =
        some (.ok 40) := by decide +kernel
    rw [ht] at hforty
    cases hlength.symm.trans (Option.some.inj hforty)
    decide
  have hroom : ∀ k : Sketch gated (.ofNat 0) quick, ∀ sl ∈ k.slots, ¬ sl.Displaces k.frame := by
    rintro k sl hsl ⟨ladder, hladder, -, hpass, -⟩
    obtain ⟨e, he, hjump⟩ := k.toOpening.exists_jump k.slots_eq hsl
    have hjumps : gated.jumps = [(choose, detector)] := rfl
    rw [hjumps, List.mem_singleton] at he
    rw [hjump, he] at hladder
    have hlast : (choose.mergedLadder.toOption.map fun ladder => ladder.any fun r => r.target == .pass) =
        some true := by
      decide +kernel
    rw [hladder] at hlast
    obtain ⟨r, hr, hr'⟩ := List.any_eq_true.1 (Option.some.inj hlast)
    exact hpass r hr (eq_of_beq hr')
  exact ⟨hticks, hroom, Sequence.clean_compile (by decide +kernel) hticks hroom⟩

end PulseSequencer
