import PulseSequencer.Proofs.Emission
import PulseSequencer.Proofs.JumpTimes
import PulseSequencer.Proofs.Static

/-!
# Drafts without faults

Up to the list that is placed, the compilation of a variant ends in no fault of the compiler itself, and its drafts are
neat.

* `Opening.proper`, `Opening.neat_drawn` : the drafts before the jumps;
* `Sketch.emittable`, `Sketch.neat_emitted` : the draft with the jumps;
* `Sketch.exists_score` : what follows up to the list that is placed cannot fail;
* `Sequence.meets_draft` : the draft of a variant.
-/

namespace PulseSequencer

/-! ## Times of destinations -/

namespace Sequence

variable {s : Sequence}

/-- A jump goes to times inside the sequence only. -/
theorem Verified.nonneg_of_checkDestination {t : Timeline} (hs : t.sequence = s) (hresolves : t.Resolves)
    (htimes : s.JumpTimes t) {jump : String} {r : Reference} (hcheck : s.checkDestination jump r = .ok ())
    {owner : String} {time : Binary64} (h : t.timeOf r owner = .ok time) : 0 ≤ time := by
  obtain ⟨c, hc, w, hw, rfl | rfl⟩ | ⟨e, he, rfl⟩ := checkDestination_cases hcheck
  · obtain ⟨start, -, hstart, -, hnonneg, -⟩ := hresolves c (hs ▸ hc) w hw
    cases hstart.symm.trans (Timeline.timeOf_owner (by simp) h w.name)
    exact hnonneg
  · obtain ⟨-, finish, -, hfinish, -, hnonneg⟩ := hresolves c (hs ▸ hc) w hw
    cases hfinish.symm.trans (Timeline.timeOf_owner (by simp) h w.name)
    exact hnonneg
  · obtain ⟨time', htime', hnonneg⟩ := htimes.time e he
    cases htime'.symm.trans (Timeline.timeOf_owner (by simp) h e.1.name)
    exact hnonneg

end Sequence

/-- A destination is on the line of ticks. -/
theorem Build.meets_destinationTick {f : Frame} {slots : List Slot} {jump : String} {r : Reference} (hf : f.Proper)
    (hunit : 0 < f.sequence.hardware.delayUnit) (hslots : ∀ s ∈ slots, 0 ≤ s.tick)
    (htime : ∀ owner time, f.timeline.timeOf r owner = .ok time → 0 ≤ time) :
    (destinationTick f slots jump r).Meets fun tick => 0 ≤ tick := by
  have hclamp : ∀ tick : Int, 0 ≤ tick → Attempt.Meets (fun tick : Int => 0 ≤ tick)
      (if f.terminator ≤ tick then do
        Attempt.warn s!"Destination of jump '{jump}' moved from tick {wholeText tick} to {wholeText (f.terminator - 1)}"
          (some jump)
        return f.terminator - 1
      else return tick) := by
    intro tick hnonneg
    split
    · refine Attempt.Clean.bind (Attempt.clean_record _) fun _ _ => Attempt.meets_pure ?_
      have := hf.long
      change 0 ≤ f.length - 1 - 1
      omega
    · exact Attempt.meets_pure hnonneg
  have htick : ∀ owner time, f.timeline.timeOf r owner = .ok time → 0 ≤ f.tickOf time := fun owner time h =>
    Tick.ofTime_nonneg hunit (htime owner time h)
  have hof : ∀ owner, (Attempt.ofExcept (f.timeline.timeOf r owner)).Clean := fun owner =>
    Attempt.meets_ofExcept (f.timeline.clean_timeOf r owner)
  unfold destinationTick
  cases r with
  | jump name =>
    simp only
    split
    · rename_i s hfind
      exact hclamp s.tick (hslots s (List.mem_of_find?_eq_some hfind))
    · exact Attempt.Clean.bind (hof name) fun time hok => hclamp _ (htick name time (Attempt.ofExcept_eq_ok.1 hok))
  | start name | finish name | control name =>
    exact Attempt.Clean.bind (hof jump) fun time hok => hclamp _ (htick jump time (Attempt.ofExcept_eq_ok.1 hok))

/-! ## Before the jumps -/

namespace Build

variable {f : Frame} {slots : List Slot} {d d' : Draft}

theorem Seated.of_descends {heir : Label → Label} (h : Seated f slots d) (hdesc : d.Descends d' heir) :
    Seated f slots d' := by
  intro l hl n hn
  obtain ⟨hl, hset⟩ := Draft.mem_sets.1 hl
  obtain ⟨x, hx, rfl, hxn⟩ := hdesc.blocked l hl n hn
  rw [hdesc.isSet x hx] at hset
  rw [hdesc.time x hx]
  rcases h x (Draft.mem_sets.2 ⟨hx, hset⟩) n hxn with hstart | ⟨s, hs, hname, hlt, m, hm, hmn, hmt⟩
  · exact .inl hstart
  · obtain ⟨hm, hmset⟩ := Draft.mem_sets.1 hm
    exact .inr ⟨s, hs, hname, hlt, heir m, Draft.mem_sets.2 ⟨hdesc.mem m hm, by rw [hdesc.isSet m hm, hmset]⟩,
      hdesc.block m hm n hmn, by rw [hdesc.time m hm, hmt]⟩

theorem Neat.of_merged {us : List Label} {heir : Label → Label} (h : Neat f slots d) (hin : d.SetsInside)
    (hm : d.Merged d' us heir) : Neat f slots d' :=
  ⟨h.toTidy.of_merged h.linked hin hm, hm.linked h.linked hin, h.seated.of_descends (hm.descends h.linked hin)⟩

/-- The END joins the list. -/
theorem Neat.append_end (h : Neat f slots d) (hlong : 2 ≤ f.length) (hlt : f.final < d.board.size)
    (hnot : f.final ∉ d.list) (hget : d.board.get f.final = .ending f.length)
    (hblock : ∀ l ∈ d.list, (d.board.get l).block ≠ some Block.endName) : Neat f slots (d.append [f.final]) := by
  have hset : (d.board.get f.final).isSet = false := by rw [hget]; rfl
  have htime : d.board.time f.final = f.length - 1 := by rw [Board.time, hget]; rfl
  refine ⟨h.toTidy.of_append_one rfl (fun l _ => ⟨(d.board.get l).reachedBy, rfl⟩) ?_ ?_ ?_,
    h.linked.append_one hlt hnot (by rw [hget]; rfl) (by rw [hget]; rfl), ?_⟩
  · change 0 ≤ d.board.time f.final
    omega
  · exact fun hset' => absurd (hset.symm.trans hset') Bool.false_ne_true
  · intro n hn l hl hln
    have hn : (d.board.get f.final).block = some n := hn
    rw [hget] at hn
    cases hn
    exact absurd hln (hblock l hl)
  · have hsets : (d.append [f.final]).sets = d.sets := by
      rw [Draft.sets, show (d.append [f.final]).list = d.list ++ [f.final] from rfl, List.filter_append,
        List.filter_singleton, show (d.append [f.final]).board = d.board from rfl, hset]
      exact List.append_nil _
    unfold Seated
    rw [hsets]
    exact h.seated

theorem Neat.draw {ps : List Pulse} : ∀ {d : Draft}, Neat f slots d →
    (∀ p ∈ ps, 0 ≤ p.interval.start ∧ 0 ≤ p.interval.finish ∧
      ∀ i, Bits.bit (Bits.single p.line) i = true → Bits.bit f.register.complement i = true) →
    Neat f slots (d.draw ps) := by
  induction ps with
  | nil => exact fun h _ => h
  | cons p ps ih =>
    intro d h hps
    obtain ⟨hstart, hfinish, hline⟩ := hps p List.mem_cons_self
    have hrise : p.rise.drive.mask = Bits.single p.line := rfl
    have hfall : p.fall.drive.mask = Bits.single p.line := rfl
    have hup : Neat f slots (d.push p.rise) := h.push rfl rfl rfl hstart fun i hi => .inr (hline i (hrise ▸ hi))
    exact ih (hup.push rfl rfl rfl hfinish fun i hi => .inr (hline i (hfall ▸ hi)))
      fun q hq => hps q (List.mem_cons_of_mem _ hq)

theorem neat_blank (f : Frame) (slots : List Slot) (length : Int) : Neat f slots (blank length).draft := by
  refine ⟨⟨?_, ?_, ?_⟩, ⟨?_, ?_, ?_, ?_⟩, ?_⟩ <;> simp [blank, Draft.sets, Seated]

end Build

/-- The draft with the control write of the start and the END. -/
theorem Sequence.meets_begin {t : Timeline} {o : Options} {length : Int} {pulses : List Pulse} (slots : List Slot)
    (hf : (Frame.ofPulses t o length pulses).Proper) : (begin (.ofPulses t o length []) (.blank length)).Meets fun b =>
      Build.Neat (.ofPulses t o length pulses) slots b.draft := by
  have hblank := Build.neat_blank (.ofPulses t o length pulses) slots length
  have hsize : (Build.blank length).draft.board.size = 1 := rfl
  have hnil : (Build.blank length).draft.list = [] := rfl
  have hend : (Build.blank length).draft.board.get 0 = .ending length := rfl
  unfold begin
  simp only
  split
  · -- the write does not depend on the pulses
    have hsame : Build.writeId (.ofPulses t o length []) 0 (some Block.startName) (.blank length) =
        Build.writeId (.ofPulses t o length pulses) 0 (some Block.startName) (.blank length) := rfl
    have hmeets := Build.meets_writeId hf hblank (le_refl 0) (b := .blank length)
        fun n (hn : some Block.startName = some n) => by
      cases hn
      exact ⟨by simp [Build.blank], .inl ⟨rfl, rfl⟩⟩
    rw [hsame]
    refine Attempt.Meets.bind (P := fun r => Build.Neat (.ofPulses t o length pulses) slots (r.2.draft.append [0]))
      (Attempt.meets_ofExcept (hmeets.mono fun p hok hneat => ?_)) fun r _ h => Attempt.meets_pure h
    obtain ⟨l, b⟩ := p
    obtain ⟨-, -, rfl, rfl⟩ := Build.writeId_eq_ok.1 hok
    refine hneat.append_end hf.long (by simp [Frame.ofPulses]) ?_ ?_ fun l hl => ?_
    · simp [Frame.ofPulses, hsize, hnil]
    · rw [show (Frame.ofPulses t o length pulses).final = 0 from rfl, Draft.get_push_of_lt _ (by simp),
        Draft.get_push_of_lt _ (by rw [hsize]; exact Nat.one_pos), hend]
      rfl
    · simp only [Draft.list_push, hnil, List.nil_append, List.mem_append, List.mem_singleton] at hl
      rcases hl with rfl | rfl
      · rw [Draft.get_push_of_lt _ (by simp), Draft.get_push_size]
        exact fun hblock => absurd hblock (by decide : some Block.startName ≠ some Block.endName)
      · rw [Draft.get_push_size]
        exact fun hblock => absurd hblock (by decide : some Block.startName ≠ some Block.endName)
  · refine Attempt.Clean.bind (Attempt.clean_record _) fun _ _ => Attempt.meets_pure ?_
    exact hblank.append_end hf.long (by rw [hsize]; exact Nat.one_pos) (by simp [hnil]) hend (by simp [hnil])

theorem Options.highTime_pos {o : Options} (h : o.complaint? = none) : 0 < o.highTime.toWhole := by
  unfold complaint? at h
  split at h
  · cases h
  rename_i hcount
  rw [Bool.not_eq_true', Bool.not_eq_false, Sequence.isCount, Bool.and_eq_true, decide_eq_true_eq] at hcount
  obtain ⟨hwhole, hone⟩ := hcount
  have hnot : ¬ o.highTime < .finite (1 : Int) := by
    intro hlt
    rw [Binary64.one_eq] at hone
    have hle : Binary64.le (.finite 1) o.highTime = true := hone
    rw [Binary64.le, Bool.and_eq_true, Bool.not_eq_true'] at hle
    have hlt : o.highTime.lt (.finite 1) = true := hlt
    rw [hlt] at hle
    cases hle.2
  rw [Binary64.lt_finite_iff hwhole] at hnot
  omega

variable {s : Sequence} {v : Nat} {o : Options}

/-! ## The stages -/

namespace Opening

variable (k : Opening s (.ofNat v) o)

include k in
theorem checkTiming : s.checkTiming (.ofNat v) = .ok () := by
  have hv := Sequence.verified_of_verify k.verified
  exact hv.checkTiming (hv.lt_variants k.variant_ok)

theorem jumpTimes : s.JumpTimes k.timeline := Sequence.jumpTimes_of_checkTiming k.checkTiming k.timeline_eq

theorem resolves : k.timeline.Resolves := by
  obtain ⟨t, ht, -, hresolves⟩ := Sequence.resolves_of_checkTiming k.checkTiming
  cases ht.symm.trans k.timeline_eq
  exact hresolves

theorem unit_pos : 0 < k.timeline.sequence.hardware.delayUnit := by
  rw [k.sequence_eq]
  exact (Sequence.verified_of_verify k.verified).hardware.unit

theorem proper (ho : o.complaint? = none) : k.frame.Proper := by
  refine ⟨Options.highTime_pos ho, not_lt.1 k.two_le, fun tick i hi => ?_⟩
  rw [k.register_eq]
  exact Pulse.bit_complement_of_stateAt k.sound hi

theorem neat_drawn (ho : o.complaint? = none) (slots : List Slot) : Build.Neat k.frame slots k.drawn := by
  refine ((Sequence.meets_begin slots (k.proper ho)).ok k.begun k.begun_eq).draw fun p hp => ?_
  have hne := k.sound.nonempty p hp
  have hbounds := Pulse.bounds_of_channels k.pulses_eq k.unit_pos k.resolves p hp hne
  refine ⟨hbounds.1, by omega, fun i hi => ?_⟩
  change Bits.bit k.frame.register.complement i = true
  rw [k.register_eq]
  exact Pulse.within_single k.sound hp hi

theorem exists_outlined (ho : o.complaint? = none) :
    ∃ d, (k.drawn.mergeSets k.frame.register.mask).outcome = .ok d :=
  (k.neat_drawn ho []).toTidy.exists_mergeSets k.ready_drawn.linked k.outlines_drawn.toFaithful

theorem neat_outlined (ho : o.complaint? = none) (slots : List Slot) {d : Draft}
    (h : (k.drawn.mergeSets k.frame.register.mask).outcome = .ok d) : Build.Neat k.frame slots d := by
  obtain ⟨us, hm⟩ := k.ready_drawn.linked.merged k.outlines_drawn.inside h
  exact (k.neat_drawn ho slots).of_merged k.outlines_drawn.inside hm

theorem ready_outlined {d : Draft} (h : (k.drawn.mergeSets k.frame.register.mask).outcome = .ok d) :
    Build.Ready k.frame d ∧ Build.Jumpless k.frame d := by
  obtain ⟨us, hm⟩ := k.ready_drawn.linked.merged k.outlines_drawn.inside h
  have hbegun : Build.Jumpless k.frame k.begun.draft := (Sequence.ready_of_begin k.begun_eq).2
  exact ⟨k.ready_drawn.of_merged hm k.outlines_drawn,
    (hbegun.of_grows k.ready_begun.linked k.continues_drawn.grows).of_descends
      (hm.descends k.ready_drawn.linked k.outlines_drawn.inside)⟩

/-! ## Jumps -/

theorem clean_slotsOf (hlimit : k.length ≤ Binary64.significandLimit) : (Build.slotsOf k.frame).Clean := by
  have hclean : Except.Clean (k.frame.sequence.jumps.mapM fun e => Build.slotOf k.frame e.1 e.2) := by
    refine Except.clean_mapM fun e _ => ?_
    refine Except.Clean.bind (k.timeline.clean_timeOf _ _) fun time _ => ?_
    simp only
    split
    · exact Except.meets_error (ne_of_beq_false rfl)
    · exact Except.Clean.bind (Sequence.clean_pulseCounter _ _) fun _ _ => Except.clean_pure _
  refine Attempt.Clean.bind (Attempt.meets_ofExcept hclean) fun raw hraw => (Slot.clean_assign ?_ fun sl hsl => ?_).bind
    fun _ _ => Attempt.meets_pure trivial
  all_goals have hall := Except.mapM_eq_ok.1 (Attempt.ofExcept_eq_ok.1 hraw)
  · rw [show k.frame.sequence = s from k.sequence_eq] at hall
    refine List.pairwise_map.2 (pairwise_of_forall₂ hall k.jumpTimes.apart fun a b x y hne hx hy => ?_)
    exact hne _ _ (Build.serves_of_slotOf hx).time (Build.serves_of_slotOf hy).time
  · obtain ⟨e, -, he⟩ := forall₂_exists_left hall hsl
    have htick : sl.tick < k.length - 1 := Build.tick_of_slotOf he
    omega

variable {slots : List Slot} (hslots : (Build.slotsOf k.frame).outcome = .ok slots)

include hslots

theorem names_slots : (slots.map fun sl => sl.jump.name).Nodup := by
  have hnames := Build.names_of_slotsOf hslots
  rw [show k.frame.sequence = s from k.sequence_eq] at hnames
  exact hnames.nodup_iff.2 (Sequence.verified_of_verify k.verified).jumpNames

theorem exists_jump {sl : Slot} (hsl : sl ∈ slots) : ∃ e ∈ s.jumps, sl.jump = e.1 := by
  obtain ⟨e, he, hserves⟩ := Build.exists_jump hslots hsl
  rw [show k.frame.sequence = s from k.sequence_eq] at he
  exact ⟨e, he, hserves.jump⟩

theorem unreserved {sl : Slot} (hsl : sl ∈ slots) : Sequence.isReserved sl.jump.name = false := by
  obtain ⟨e, he, heq⟩ := k.exists_jump hslots hsl
  rw [heq]
  exact (Sequence.verified_of_verify k.verified).unreserved e he

theorem emittable (ho : o.complaint? = none) {sl : Slot} (hsl : sl ∈ slots) : Build.Emittable k.frame slots sl := by
  have hnonneg := Build.nonneg_of_slotsOf hslots
  refine ⟨hsl, hnonneg sl hsl, (Sequence.ne_of_unreserved (k.unreserved hslots hsl)).1, fun sl' hsl' heq => ?_,
    fun ladder hladder r hr ref htarget => ?_⟩
  · rw [List.inj_on_of_nodup_map (k.names_slots hslots) hsl' hsl heq.symm]
  · obtain ⟨e, he, heq⟩ := k.exists_jump hslots hsl
    have hcheck := (Sequence.verified_of_verify k.verified).checkDestination he (heq ▸ hladder) hr htarget
    exact Build.meets_destinationTick (k.proper ho) k.unit_pos hnonneg fun owner time htime =>
      Sequence.Verified.nonneg_of_checkDestination k.sequence_eq k.resolves k.jumpTimes hcheck htime

/-- Before the jumps there are no blocks but those of the start and the end. -/
theorem fresh_outlined (ho : o.complaint? = none) {d : Draft}
    (h : (k.drawn.mergeSets k.frame.register.mask).outcome = .ok d) {sl : Slot} (hsl : sl ∈ slots) :
    ∀ l ∈ d.list, (d.board.get l).block ≠ some sl.jump.name := by
  intro l hl hblock
  obtain ⟨hready, hjumpless⟩ := k.ready_outlined h
  obtain ⟨hstart, hend⟩ := Sequence.ne_of_unreserved (k.unreserved hslots hsl)
  cases hset : (d.board.get l).isSet with
  | true =>
    rcases (k.neat_outlined ho [] h).seated l (Draft.mem_sets.2 ⟨hl, hset⟩) _ hblock with ⟨hname, -⟩ | ⟨_, hmem, -⟩
    · exact hstart hname
    · cases hmem
  | false =>
    obtain ⟨rs, hget⟩ := hready.ending
    rw [hjumpless l hl hset, hget] at hblock
    exact hend (Option.some.inj hblock).symm

theorem meets_emitted (ho : o.complaint? = none) {d : Draft}
    (h : (k.drawn.mergeSets k.frame.register.mask).outcome = .ok d) :
    ((Sort.sortBy (fun a b : Slot => decide (a.tick ≤ b.tick)) slots).foldlM
      (fun b sl => Build.emit k.frame slots sl b) { k.begun with draft := d }).Meets fun b =>
        Build.Neat k.frame slots b.draft :=
  Build.meets_foldlM_emit (k.proper ho) (b := { k.begun with draft := d }) (k.neat_outlined ho slots h)
    (k.ready_outlined h).1 (((Sort.perm_sortBy _ _).map _).nodup_iff.2 (k.names_slots hslots))
    (fun _ hsl => k.emittable hslots ho (Sort.mem_sortBy.1 hsl))
    fun _ hsl => k.fresh_outlined hslots ho h (Sort.mem_sortBy.1 hsl)

end Opening

/-- With the SET of tick 0, the list that is placed can be made of every tidy draft that outlines the signal. -/
theorem Frame.exists_ledger {f : Frame} {d : Draft} (hf : f.Proper) (hd : d.Linked)
    (htidy : d.Tidy f.register.mask f.register.complement)
    (ho : d.Outlines (Pulse.stateAt f.pulses) f.register.complement) :
    ∃ merged carried ledger, ((d.push f.starting).mergeSets f.register.mask).outcome = .ok merged ∧
      merged.inheritOutputs f.register.complement = .ok carried ∧
      (carried.mergeSets f.register.mask).outcome = .ok ledger := by
  have hcont : Draft.Continues (Pulse.stateAt f.pulses) f.register.complement [] [] [] d (d.push f.starting) :=
    Draft.continues_push hd ho.toFaithful rfl (fun _ h => by cases h) rfl (hf.state 0) f.full_starting.trueTo
  have hstarted : (d.push f.starting).Tidy f.register.mask f.register.complement :=
    htidy.push hd (le_refl 0) (fun _ hmask => .inr hmask) fun _ h => by cases h
  obtain ⟨merged, hmerged⟩ := hstarted.exists_mergeSets hcont.linked hcont.faithful
  obtain ⟨us, hm⟩ := hcont.linked.merged hcont.faithful.inside hmerged
  have hmtidy := hstarted.of_merged hcont.linked hcont.faithful.inside hm
  have hmlinked := hm.linked hcont.linked hcont.faithful.inside
  have houtlines := hcont.outlines ho
  have hstart := hm.exists_start hcont.linked houtlines
  obtain ⟨l, ⟨hl, -⟩, htime, -⟩ := hstart
  obtain ⟨carried, hcarried⟩ : ∃ d', merged.inheritOutputs f.register.complement = .ok d' := Draft.exists_inheritOutputs
    (fun l hl => hmtidy.nonneg l (Draft.mem_sets.1 hl).1) ⟨l, hl, htime⟩
  obtain ⟨hlist, hred, hinside, hcarries⟩ := Draft.full_of_inheritOutputs (hm.outlines hcont.linked houtlines) hmlinked
    (fun l hl => hm.first_of_leads hcont.linked houtlines.inside hl) (by rw [hm.list, Draft.sorted_sorted])
    (hm.exists_start hcont.linked houtlines) hcarried
  obtain ⟨ledger, hledger⟩ := (hmtidy.of_inheritOutputs hmlinked hcarried).exists_mergeSets
    (hmlinked.of_sameLinks hred.sameLinks (List.Perm.of_eq hlist)) ⟨hinside, fun l hl => (hcarries l hl).trueTo⟩
  exact ⟨merged, carried, ledger, hmerged, hcarried, hledger⟩

namespace Sketch

variable (k : Sketch s (.ofNat v) o)

theorem neat_emitted (ho : o.complaint? = none) : Build.Neat k.frame k.slots k.emitted.draft :=
  (k.meets_emitted k.slots_eq ho k.outlined_eq).ok k.emitted k.emitted_eq

/-- From the jumps to the list that is placed nothing can fail. -/
theorem exists_score (ho : o.complaint? = none) : ∃ k' : Score s (.ofNat v) o, k'.toSketch = k := by
  have hneat := k.neat_emitted ho
  obtain ⟨joined, hjoined⟩ := hneat.toTidy.exists_mergeSets hneat.linked k.outlines_emitted.toFaithful
  obtain ⟨us, hm⟩ := hneat.linked.merged k.outlines_emitted.inside hjoined
  have hjneat := hneat.of_merged k.outlines_emitted.inside hm
  have hsort : joined.sort = { joined with past := joined.list :: joined.past } := by
    rw [Draft.sort, Draft.supersede, hm.list, Draft.sorted_sorted]
  have houtlines : joined.sort.Outlines k.signal k.lines := by
    rw [hsort]
    have := hm.outlines hneat.linked k.outlines_emitted
    exact ⟨⟨this.inside, this.trueTo⟩, this.edges⟩
  obtain ⟨merged, carried, ledger, hmerged, hcarried, hledger⟩ :=
    Frame.exists_ledger (k.proper ho) hjneat.linked.sort hjneat.toTidy.sort houtlines
  exact ⟨{ k with
    joined, merged, carried, ledger, joined_eq := hjoined
    starting_inside := Bits.without_eq_zero.2 ((k.proper ho).state 0), merged_eq := hmerged, carried_eq := hcarried
    ledger_eq := hledger }, rfl⟩

end Sketch

theorem Attempt.meets_bind_ok {α β : Type} {x : Attempt α} {a : α} {f : α → Attempt β} {Q : β → Prop}
    (hx : x.outcome = .ok a) (hf : (f a).Meets Q) : (x >>= f).Meets Q :=
  (meets_of_ok hx (P := (· = a)) rfl).bind fun _ _ heq => heq ▸ hf

/-- The draft of a variant whose times have been checked. -/
theorem Sequence.meets_draft {t : Timeline} {length : Int} (ho : o.complaint? = none)
    (hverify : s.verify.outcome = .ok ())
    (hvariant :
      (!(Binary64.ofNat v).isWhole || decide (Binary64.ofNat v < 0) || decide (s.variants ≤ .ofNat v)) = false)
    (ht : Timeline.ofVariant s (.ofNat v) = .ok t) (hlength : (ticks t o).outcome = .ok length) (htwo : ¬ length < 2)
    (hlimit : length ≤ Binary64.significandLimit) : (draft t o length).Meets fun r =>
      ∃ k : Score s (.ofNat v) o, k.timeline = t ∧ k.length = length ∧ r = (k.frame, k.started) := by
  have hv := verified_of_verify hverify
  obtain ⟨t', ht', hseq, hresolves⟩ := resolves_of_checkTiming (hv.checkTiming (hv.lt_variants hvariant))
  cases ht.symm.trans ht'
  obtain ⟨pulses, hpulses⟩ := Pulse.exists_of_channels hv hseq hresolves (length - 1)
  have hhigh := Options.highTime_pos ho
  have hempty : (Frame.ofPulses t o length []).Proper := ⟨hhigh, not_lt.1 htwo, fun tick i hi => by
    simp [Frame.ofPulses, Pulse.stateAt] at hi⟩
  refine Attempt.Clean.bind (meets_begin [] hempty).clean fun begun hbegun => ?_
  let k₀ : Opening s (.ofNat v) o := ⟨t, length, pulses, begun, hverify, hvariant, ht, hlength, htwo, hbegun, hpulses⟩
  refine Attempt.meets_bind_ok hpulses ?_
  refine Attempt.meets_bind_ok (Attempt.ofExcept_eq_ok.2 (Pulse.foldlM_draw _ _)) ?_
  obtain ⟨outlined, houtlined⟩ := k₀.exists_outlined ho
  refine Attempt.meets_bind_ok houtlined ?_
  refine Attempt.Clean.bind (Attempt.Clean.bind (k₀.clean_slotsOf hlimit) fun slots hslots =>
    (k₀.meets_emitted hslots ho houtlined).clean) fun emitted hemit => ?_
  obtain ⟨slots, hslots, hemitted⟩ := Attempt.bind_eq_ok.1 hemit
  let k₁ : Sketch s (.ofNat v) o := { k₀ with
    outlined, slots, emitted, outlined_eq := houtlined, slots_eq := hslots, emitted_eq := hemitted }
  obtain ⟨⟨k, joined, merged, carried, ledger, hjoined, hinside, hmerged, hcarried, hledger⟩, hk⟩ := k₁.exists_score ho
  obtain rfl : k = k₁ := hk
  refine Attempt.meets_bind_ok hjoined ?_
  refine Attempt.meets_bind_ok (Attempt.ofExcept_eq_ok.2 (Board.addSet_eq_ok.2 ⟨hinside, rfl⟩)) ?_
  exact Attempt.meets_pure ⟨⟨k₁, joined, merged, carried, ledger, hjoined, hinside, hmerged, hcarried, hledger⟩, rfl,
    rfl, rfl⟩

end PulseSequencer
