import PulseSequencer.Proofs.Descent
import PulseSequencer.Proofs.Drawing
import PulseSequencer.Proofs.Finish

/-!
# Drafts without jumps

* `Draft.Plain` : free SETs on the output lines, where the signal changes, and the END at the last tick;
* `Draft.Plain.exists_mergeSets`, `Draft.Plain.of_mergeSets` : its SETs can be merged, and have ticks of their own then;
* `Draft.Plain.exists_place`, `Draft.Plain.exists_completion` : the later passes succeed, and placement leaves every
  instruction at its tick.
-/

namespace PulseSequencer

/-- A drive sets no bit outside the lines. -/
def Drive.Within (lines : Int) (e : Drive) : Prop := ∀ i, Bits.bit e.value i = true → Bits.bit lines i = true

/-- A free SET before the END, at tick 0 or where the signal changes. -/
structure Instruction.Plain (signal : Int → Int) (lines length : Int) (i : Instruction) : Prop where
  free : i.block = none
  nonneg : 0 ≤ i.time
  lt : i.time < length - 1
  change : i.time = 0 ∨ signal (i.time - 1) ≠ signal i.time
  inside : i.drive.Inside
  within : i.drive.Within lines

namespace Draft

structure Plain (signal : Int → Int) (lines length : Int) (d : Draft) : Prop where
  linked : d.Linked
  sets : ∀ l ∈ d.sets, (d.board.get l).Plain signal lines length
  final : 0 ∈ d.list
  ending : d.board.get 0 = .ending length
  other : ∀ l ∈ d.list, (d.board.get l).isSet = false → l = 0

namespace Plain

variable {signal : Int → Int} {lines length : Int} {d d' : Draft}

theorem push (h : d.Plain signal lines length) {i : Instruction} (hi : i.Plain signal lines length)
    (hset : i.isSet = true) (hreached : i.reachedBy = []) : (d.push i).Plain signal lines length where
  linked := h.linked.push (Instruction.target?_of_isSet hset) hreached
  sets l hl := by
    rw [sets_push h.linked.valid, if_pos hset] at hl
    rcases List.mem_append.1 hl with hl | hl
    · rw [get_push_of_lt i (h.linked.valid l (mem_sets.1 hl).1)]
      exact h.sets l hl
    · rw [List.mem_singleton.1 hl, get_push_size]
      exact hi
  final := List.mem_append_left _ h.final
  ending := by rw [get_push_of_lt i (h.linked.valid 0 h.final), h.ending]
  other l hl hnone := by
    rcases List.mem_append.1 hl with hl | hl
    · rw [get_push_of_lt i (h.linked.valid l hl)] at hnone
      exact h.other l hl hnone
    · rw [List.mem_singleton.1 hl, get_push_size, hset] at hnone
      cases hnone

theorem draw {ps : List Pulse} : ∀ {d : Draft}, d.Plain signal lines length →
    (∀ p ∈ ps, p.rise.Plain signal lines length ∧ p.fall.Plain signal lines length) →
    (d.draw ps).Plain signal lines length := by
  induction ps with
  | nil => exact fun h _ => h
  | cons p ps ih =>
    intro d h hps
    obtain ⟨hrise, hfall⟩ := hps p List.mem_cons_self
    exact ih ((h.push hrise rfl rfl).push hfall rfl rfl) fun q hq => hps q (List.mem_cons_of_mem _ hq)

/-- Other drives on the same lines, and another order. -/
theorem of_redriven (h : d.Plain signal lines length) (hb : d.board.Redriven d'.board) (hlist : d'.list.Perm d.list)
    (hdrive : ∀ l ∈ d.sets, (d'.board.get l).drive.Inside ∧ (d'.board.get l).drive.Within lines) :
    d'.Plain signal lines length where
  linked := h.linked.of_sameLinks hb.sameLinks hlist
  sets l hl := by
    obtain ⟨hmem, hset⟩ := mem_sets.1 hl
    have hl' : l ∈ d.sets := mem_sets.2 ⟨hlist.mem_iff.1 hmem, by rwa [← hb.sameLinks.isSet l]⟩
    have htime : (d'.board.get l).time = (d.board.get l).time := hb.time_eq l
    obtain ⟨hfree, h0, hlt, hchange, -, -⟩ := h.sets l hl'
    refine ⟨?_, ?_, ?_, ?_, (hdrive l hl').1, (hdrive l hl').2⟩
    · rwa [hb.block_eq]
    · rwa [htime]
    · rwa [htime]
    · rwa [htime]
  final := hlist.mem_iff.2 h.final
  ending := by rw [hb.get_of_not_isSet (by rw [h.ending]; rfl), h.ending]
  other l hl hnone := h.other l (hlist.mem_iff.1 hl) (by rwa [← hb.sameLinks.isSet l])

theorem of_perm (h : d.Plain signal lines length) (hb : d'.board = d.board) (hlist : d'.list.Perm d.list) :
    d'.Plain signal lines length :=
  h.of_redriven (hb ▸ .refl d.board) hlist fun l hl => by rw [hb]; exact ⟨(h.sets l hl).inside, (h.sets l hl).within⟩

theorem setsInside (h : d.Plain signal lines length) : d.SetsInside := fun l hl => (h.sets l hl).inside

theorem hostAt_eq (h : d.Plain signal lines length) (time : Int) : hostAt d.board d.sets time = none :=
  hostAt_eq_none.2 fun l hl _ => (h.sets l hl).free

theorem keyOf_eq (h : d.Plain signal lines length) {l : Label} (hl : l ∈ d.sets) :
    keyOf d.board d.sets l = ⟨d.board.time l, none⟩ := by
  rw [keyOf, h.hostAt_eq, (h.sets l hl).free]
  rfl

/-! ## Merging -/

/-- SETs of one tick agree: on the lines they show the signal, elsewhere they set nothing. -/
theorem unitable (h : d.Plain signal lines length) (hf : d.Faithful signal lines) (controlMask : Int) :
    ∀ g ∈ d.gathered, d.board.Unitable controlMask g := by
  intro g hg
  obtain ⟨k, hk, rfl⟩ := List.mem_map.1 hg
  have hmem : ∀ l ∈ members d.board d.sets k, l ∈ d.sets ∧ keyOf d.board d.sets l = k := fun l => (mem_members hk).1
  have htime : ∀ l ∈ members d.board d.sets k, d.board.time l = k.time := by
    rintro l hl
    obtain ⟨-, rfl⟩ := hmem l hl
    rfl
  refine ⟨?_, fun l hl => (h.sets l (hmem l hl).1).inside, fun x hx y hy => (htime x hx).trans (htime y hy).symm,
    ⟨none, List.filterMap_eq_nil_iff.2 fun l hl => (h.sets l (hmem l hl).1).free⟩, fun i _ x hx y hy hxi hyi => ?_⟩
  · obtain ⟨l, hl, rfl⟩ := mem_groups.1 hk
    exact List.ne_nil_of_mem (mem_members_keyOf hl)
  · have hxs := (hmem x hx).1
    have hys := (hmem y hy).1
    cases hi : Bits.bit lines i with
    | true => rw [hf.trueTo x hxs i hi hxi, hf.trueTo y hys i hi hyi, htime x hx, htime y hy]
    | false =>
      have hoff : ∀ l ∈ d.sets, Bits.bit (d.board.get l).drive.value i = false := fun l hl => by
        rw [← Bool.not_eq_true]
        intro hset
        rw [(h.sets l hl).within i hset] at hi
        cases hi
      rw [hoff x hxs, hoff y hys]

theorem exists_mergeSets (h : d.Plain signal lines length) (hf : d.Faithful signal lines) (controlMask : Int) :
    ∃ d', (d.mergeSets controlMask).outcome = .ok d' :=
  h.linked.exists_mergeSets h.setsInside (h.unitable hf controlMask)

section Merged

variable {us : List Label} {heir : Label → Label}

theorem of_merged (h : d.Plain signal lines length) (hm : d.Merged d' us heir) : d'.Plain signal lines length := by
  have hin := h.setsInside
  have hdesc := hm.descends h.linked hin
  have hend : (d.board.get 0).isSet = false := by rw [h.ending]; rfl
  obtain ⟨hself, hget⟩ := hdesc.other 0 h.final hend
  refine ⟨hm.linked h.linked hin, fun l hl => ?_, ?_, ?_, fun l hl hset => ?_⟩
  · obtain ⟨x, hx, rfl⟩ := (hm.mem_sets_iff h.linked hin).1 hl
    have htime : (d'.board.get (heir x)).time = (d.board.get x).time := hdesc.time x (mem_sets.1 hx).1
    obtain ⟨-, h0, hlt, hchange, -, -⟩ := h.sets x hx
    have hinside : (d'.board.get (heir x)).drive.Inside := hm.setsInside h.linked hin _ hl
    refine ⟨?_, ?_, ?_, ?_, hinside, fun i hi => ?_⟩
    · rw [hm.block_heir h.linked hin hx, h.keyOf_eq hx]
    · rwa [htime]
    · rwa [htime]
    · rwa [htime]
    · obtain ⟨y, hy, -, -, hvalue⟩ := hm.exists_drive h.linked hin hx (hinside i hi)
      exact (h.sets y hy).within i (hvalue ▸ hi)
  · have hmem := hdesc.mem 0 h.final
    rwa [hself] at hmem
  · rw [hget, h.ending]
    rfl
  · obtain ⟨hl, hset⟩ := hdesc.back l hl hset
    exact h.other l hl hset

/-- Merged SETs stand at different ticks. -/
theorem eq_of_time_eq (h : d.Plain signal lines length) (hm : d.Merged d' us heir) {x y : Label} (hx : x ∈ d'.sets)
    (hy : y ∈ d'.sets) (htime : d'.board.time x = d'.board.time y) : x = y := by
  have hin := h.setsInside
  obtain ⟨a, ha, rfl⟩ := (hm.mem_sets_iff h.linked hin).1 hx
  obtain ⟨b, hb, rfl⟩ := (hm.mem_sets_iff h.linked hin).1 hy
  rw [hm.time_heir h.linked hin (mem_sets.1 ha).1, hm.time_heir h.linked hin (mem_sets.1 hb).1] at htime
  have hkey : keyOf d.board d.sets a = keyOf d.board d.sets b := by rw [h.keyOf_eq ha, h.keyOf_eq hb, htime]
  exact (hm.heir_of_mem h.linked hin (hm.pair_heir h.linked hin hb) (hkey ▸ mem_members_keyOf ha))

theorem increasing_of_merged (h : d.Plain signal lines length) (hm : d.Merged d' us heir) :
    d'.list.Pairwise fun x y => d'.board.time x < d'.board.time y := by
  have h' := h.of_merged hm
  have hle : d'.list.Pairwise fun x y => d'.board.time x ≤ d'.board.time y := by
    rw [hm.list]
    exact pairwise_time_sorted _ _
  have hend : d'.board.time 0 = length - 1 := congrArg Instruction.time h'.ending
  refine (hle.and h'.linked.nodup).imp_of_mem fun {x y} hx hy ⟨hxy, hne⟩ => lt_of_le_of_ne hxy fun heq => hne ?_
  cases hxs : (d'.board.get x).isSet with
  | true =>
    cases hys : (d'.board.get y).isSet with
    | true => exact h.eq_of_time_eq hm (mem_sets.2 ⟨hx, hxs⟩) (mem_sets.2 ⟨hy, hys⟩) heq
    | false =>
      rw [h'.other y hy hys, hend] at heq
      exact absurd heq (h'.sets x (mem_sets.2 ⟨hx, hxs⟩)).lt.ne
  | false =>
    rw [h'.other x hx hxs] at heq ⊢
    cases hys : (d'.board.get y).isSet with
    | true => exact absurd (heq.symm.trans hend) (h'.sets y (mem_sets.2 ⟨hy, hys⟩)).lt.ne
    | false => exact (h'.other y hy hys).symm

end Merged

theorem of_mergeSets (h : d.Plain signal lines length) {controlMask : Int}
    (hm : (d.mergeSets controlMask).outcome = .ok d') :
    d'.Plain signal lines length ∧ d'.list.Pairwise fun x y => d'.board.time x < d'.board.time y := by
  obtain ⟨us, hmerged⟩ := h.linked.merged h.setsInside hm
  exact ⟨h.of_merged hmerged, h.increasing_of_merged hmerged⟩

/-! ## Inheritance -/

theorem of_inheritOutputs (h : d.Plain signal lines length)
    (hinc : d.list.Pairwise fun x y => d.board.time x < d.board.time y) (hi : d.inheritOutputs lines = .ok d') :
    d'.Plain signal lines length ∧ d'.list = d.list ∧ d.board.Redriven d'.board := by
  have hkeep : ∀ l ∈ d.sets, ∀ e e' : Drive, e.Inside ∧ e.Within lines →
      (Board.inheritDrive e e' lines).Inside ∧ (Board.inheritDrive e e' lines).Within lines := by
    refine fun _ _ e e' he => ⟨Board.inside_inheritDrive he.1 lines, fun i hset => ?_⟩
    rw [Board.bit_value_inheritDrive] at hset
    cases hi : Bits.bit lines i with
    | true => rfl
    | false => simpa [hi] using he.2 i (by simpa [hi] using hset)
  obtain ⟨hlist, hred, hdrive⟩ := drives_of_inheritOutputs (R := fun _ e => e.Inside ∧ e.Within lines) h.linked
    (fun l hl => ⟨(h.sets l hl).inside, (h.sets l hl).within⟩) hkeep hi
  rw [sorted_of_increasing hinc] at hlist
  refine ⟨h.of_redriven hred (hlist ▸ .refl _) fun l hl => hdrive l ?_, hlist, hred⟩
  rw [mem_sets, hlist, hred.sameLinks.isSet, ← mem_sets]
  exact hl

/-! ## Placement -/

theorem block_eq (h : d.Plain signal lines length) {l : Label} (hl : l ∈ d.list) :
    (d.board.get l).block = if l = 0 then some Block.endName else none := by
  cases hset : (d.board.get l).isSet with
  | true =>
    have hne : l ≠ 0 := by
      rintro rfl
      rw [h.ending] at hset
      cases hset
    rw [if_neg hne, (h.sets l (mem_sets.2 ⟨hl, hset⟩)).free]
  | false =>
    rw [h.other l hl hset, h.ending]
    rfl

/-- The END is alone in the only block. -/
theorem collect_eq [Collation] (h : d.Plain signal lines length) :
    Block.collect d.board d.list = [⟨Block.endName, length - 1, length - 1, length - 1, [0]⟩] := by
  have hnames : distinct (d.list.filterMap fun l => (d.board.get l).block) = [Block.endName] := by
    refine List.perm_singleton.1 ((List.perm_ext_iff_of_nodup (nodup_distinct _) (List.nodup_singleton _)).2
      fun n => ?_)
    rw [mem_distinct, List.mem_filterMap, List.mem_singleton]
    constructor
    · rintro ⟨l, hl, hblock⟩
      rw [h.block_eq hl] at hblock
      split at hblock
      · exact (Option.some.inj hblock).symm
      · cases hblock
    · rintro rfl
      exact ⟨0, h.final, by rw [h.ending]; rfl⟩
  have hmembers : (d.list.filter fun l => (d.board.get l).block == some Block.endName) = [0] := by
    refine List.perm_singleton.1
      ((List.perm_ext_iff_of_nodup (h.linked.nodup.filter _) (List.nodup_singleton _)).2 fun l => ?_)
    rw [List.mem_filter, List.mem_singleton, beq_iff_eq]
    constructor
    · rintro ⟨hl, hblock⟩
      rw [h.block_eq hl] at hblock
      split at hblock
      · assumption
      · cases hblock
    · rintro rfl
      exact ⟨h.final, by rw [h.ending]; rfl⟩
  have htime : d.board.time 0 = length - 1 := congrArg Instruction.time h.ending
  rw [Block.collect, hnames, List.map_singleton, hmembers]
  simp only [Sort.sortBy, Sort.insertBy, Block.ofMembers, Block.anchorOf, List.reverse_singleton, if_true,
    List.headD, List.getLastD, htime]

theorem exists_place [Collation] (h : d.Plain signal lines length)
    (hinc : d.list.Pairwise fun x y => d.board.time x < d.board.time y) (hpos : 1 ≤ length)
    (hmax : length ≤ TickLine.maxLength) : ∃ d', (d.place length).outcome = .ok d' ∧ d'.board = d.board := by
  have htime : d.board.time 0 = length - 1 := congrArg Instruction.time h.ending
  let x : Block := ⟨Block.endName, length - 1, length - 1, length - 1, [0]⟩
  let t : TickLine := ⟨length, [x], [(length - 1, 0)]⟩
  have hsep : (Block.separate d.board (Block.collect d.board d.list)).outcome = .ok ([x], d.board) := by
    rw [h.collect_eq]
    rfl
  have hblocks : TickLine.placeBlocks ⟨length, [x], []⟩ d.board = .ok t := by
    refine Except.foldlM_cons_eq_ok.2 ⟨t, Except.foldlM_cons_eq_ok.2 ⟨t, ?_, rfl⟩, rfl⟩
    have hrange : TickLine.inRange ⟨length, [x], []⟩ (length - 1) = true := by
      simp only [TickLine.inRange, Bool.and_eq_true, decide_eq_true_eq]
      omega
    unfold TickLine.placeMember
    simp only [htime, hrange, Bool.not_true, Bool.false_eq_true, if_false]
    rfl
  let free := Sort.sortBy (fun x y => (d.board.get y).before (d.board.get x))
    (d.list.filter fun l => (d.board.get l).block.isNone)
  have hfree : ∀ l ∈ free, t.inRange (d.board.time l) = true ∧ t.blockAt? (d.board.time l) = none ∧
      ∀ e ∈ t.taken, e.1 ≠ d.board.time l := by
    intro l hl
    obtain ⟨hl, hnone⟩ := List.mem_filter.1 (Sort.mem_sortBy.1 hl)
    have hset : (d.board.get l).isSet = true := by
      rw [← Bool.not_eq_false]
      intro hset
      rw [h.other l hl hset, h.ending] at hnone
      cases hnone
    have h0 : 0 ≤ d.board.time l := (h.sets l (mem_sets.2 ⟨hl, hset⟩)).nonneg
    have hlt : d.board.time l < length - 1 := (h.sets l (mem_sets.2 ⟨hl, hset⟩)).lt
    refine ⟨?_, ?_, fun e he => ?_⟩
    · simp only [TickLine.inRange, Bool.and_eq_true, decide_eq_true_eq, t]
      omega
    · simp [TickLine.blockAt?, t, x]
      omega
    · rw [List.mem_singleton.1 he]
      exact hlt.ne'
  have hne : free.Pairwise fun x y => d.board.time x ≠ d.board.time y := by
    have hlist : d.list.Pairwise fun x y => d.board.time x ≠ d.board.time y := hinc.imp fun hlt => hlt.ne
    exact (Sort.perm_sortBy _ _).symm.pairwise (hlist.filter _) fun hxy => hxy.symm
  obtain ⟨t', ht'⟩ := TickLine.foldlM_placeFree_ok hfree hne
  have hplace : (d.board.place length d.list).outcome = .ok (t'.labels, d.board) := by
    refine Attempt.bind_eq_ok.2 ⟨([x], d.board), hsep, ?_⟩
    have hnot : ¬ (length < 0 ∨ TickLine.maxLength < length) := by omega
    simp only [if_neg hnot]
    exact Attempt.bind_eq_ok.2 ⟨t, Attempt.outcome_ofExcept_ok hblocks, Attempt.bind_eq_ok.2 ⟨_, ht', rfl⟩⟩
  exact ⟨_, Attempt.bind_eq_ok.2 ⟨_, hplace, rfl⟩, rfl⟩

/-! ## All passes -/

theorem exists_start_of_redriven (hb : d.board.Redriven d'.board) (hlist : d'.list.Perm d.list)
    (h : ∃ l ∈ d.sets, d.board.time l = 0) : ∃ l ∈ d'.sets, d'.board.time l = 0 := by
  obtain ⟨l, hl, hzero⟩ := h
  obtain ⟨hmem, hset⟩ := mem_sets.1 hl
  exact ⟨l, mem_sets.2 ⟨hlist.mem_iff.2 hmem, by rwa [hb.sameLinks.isSet]⟩, by rwa [hb.time_eq]⟩

/-- A merged draft with a SET at tick 0 goes through all passes, and its instructions stay at their ticks. -/
theorem exists_completion [Collation] (h : d.Plain signal lines length)
    (hinc : d.list.Pairwise fun x y => d.board.time x < d.board.time y) (hstart : ∃ l ∈ d.sets, d.board.time l = 0)
    (hpos : 1 ≤ length) (hmax : length ≤ TickLine.maxLength) (controlMask : Int) :
    ∃ carried ledger placed settled filled final, d.inheritOutputs lines = .ok carried ∧
      (carried.mergeSets controlMask).outcome = .ok ledger ∧ (ledger.place length).outcome = .ok placed ∧
      placed.inheritOutputs lines = .ok settled ∧ settled.fillGaps = .ok filled ∧
      (filled.sort.mergeSets controlMask).outcome = .ok final ∧ final.list.length = filled.sort.list.length ∧
      final.Scheduled ∧ settled.Plain signal lines length ∧ ∀ l, settled.board.time l = ledger.board.time l := by
  obtain ⟨carried, hcarried⟩ := exists_inheritOutputs (fun l hl => (h.sets l hl).nonneg) hstart
  obtain ⟨hcplain, hclist, hcred⟩ := h.of_inheritOutputs hinc hcarried
  have hcinc : carried.list.Pairwise fun x y => carried.board.time x < carried.board.time y := by
    simpa only [hclist, hcred.time_eq] using hinc
  have hledger := mergeSets_of_increasing hcinc controlMask
  have hlplain : (carried.supersede carried.list).Plain signal lines length := hcplain.of_perm rfl (.refl _)
  obtain ⟨placed, hplaced, hpboard⟩ := hlplain.exists_place hcinc hpos hmax
  have hlaid := placed_of_place hlplain.linked.valid hlplain.linked.nodup hplaced
  have hpplain : placed.Plain signal lines length := hlplain.of_perm hpboard hlaid.perm
  have hpstart : ∃ l ∈ placed.sets, placed.board.time l = 0 :=
    exists_start_of_redriven (hpboard ▸ hcred) (hlaid.perm.trans (hclist ▸ .refl _)) hstart
  obtain ⟨settled, filled, final, hsettled, hfilled, hfinal, hcount, hscheduled⟩ := exists_finish hpplain.linked
    hpplain.setsInside hlaid.increasing (fun l hl => (hlaid.range l hl).1) hpstart lines controlMask
  obtain ⟨hsplain, hslist, hsred⟩ := hpplain.of_inheritOutputs hlaid.increasing hsettled
  refine ⟨carried, _, placed, settled, filled, final, hcarried, hledger, hplaced, hsettled, hfilled, hfinal, hcount,
    hscheduled, hsplain, fun l => ?_⟩
  rw [hsred.time_eq, hpboard]

end Plain

end Draft

end PulseSequencer
