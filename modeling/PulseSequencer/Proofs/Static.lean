import PulseSequencer.Proofs.Levels
import PulseSequencer.Proofs.Plain
import PulseSequencer.Proofs.Stages

/-!
# Layouts of sequences without jumps

* `Layout.Static` : a layout whose instructions all stand where they were drawn;
* `Layout.exists_static` : a verified sequence without jumps that is long enough has one.
-/

namespace PulseSequencer

/-- A layout of SETs where the signal changes, and the END. -/
structure Layout.Static [Collation] {s : Sequence} {variant : Binary64} {o : Options} (k : Layout s variant o) :
    Prop where
  plain : k.settled.Plain k.signal k.lines k.length
  time : ∀ l, k.settled.board.time l = k.ledger.board.time l

namespace Pulse

variable {h : Hardware} {ps : List Pulse} {p : Pulse} {length : Int}

theorem within_single (hs : Sound h ps) (hp : p ∈ ps) {i : Nat} (hi : Bits.bit (Bits.single p.line) i = true) :
    Bits.bit (Register.complement h.register) i = true := by
  rw [Bits.bit_single, decide_eq_true_eq] at hi
  rw [hi]
  exact (hs.onLine p hp).bit_complement

theorem plain_rise (hs : Sound h ps) (hp : p ∈ ps) (hstart : 0 ≤ p.interval.start)
    (hfinish : p.interval.finish ≤ length - 2) :
    p.rise.Plain (stateAt ps) (Register.complement h.register) length where
  free := rfl
  nonneg := hstart
  lt := by
    change p.interval.start < length - 1
    have := hs.nonempty p hp
    omega
  change := .inr (stateAt_start_ne hs hp)
  inside _ hi := hi
  within _ hi := within_single hs hp hi

theorem plain_fall (hs : Sound h ps) (hp : p ∈ ps) (hstart : 0 ≤ p.interval.start)
    (hfinish : p.interval.finish ≤ length - 2) :
    p.fall.Plain (stateAt ps) (Register.complement h.register) length where
  free := rfl
  nonneg := by
    change 0 ≤ p.interval.finish
    have := hs.nonempty p hp
    omega
  lt := by
    change p.interval.finish < length - 1
    omega
  change := .inr (stateAt_finish_ne hs hp)
  inside i hi := absurd ((Bits.bit_zero i).symm.trans hi) Bool.false_ne_true
  within i hi := absurd ((Bits.bit_zero i).symm.trans hi) Bool.false_ne_true

end Pulse

theorem Frame.plain_starting {f : Frame} {h : Hardware} (hregister : f.register = h.register)
    (hs : Pulse.Sound h f.pulses) (hlength : 2 ≤ f.length) :
    f.starting.Plain (Pulse.stateAt f.pulses) f.register.complement f.length where
  free := rfl
  nonneg := le_refl 0
  lt := by
    change 0 < f.length - 1
    omega
  change := .inl rfl
  inside i hi := by
    change Bits.bit f.register.complement i = true
    rw [hregister]
    exact Pulse.bit_complement_of_stateAt hs hi
  within i hi := by
    rw [hregister]
    exact Pulse.bit_complement_of_stateAt hs hi

namespace Sequence

/-- The draft of a sequence without jumps starts with the END alone. -/
def bare (length : Int) : Build := { Build.blank length with draft := (Build.blank length).draft.append [0] }

theorem begin_of_not_hasJumps {t : Timeline} {o : Options} {length : Int} (h : t.sequence.hasJumps = false) :
    (begin (.ofPulses t o length []) (.blank length)).outcome = .ok (bare length) := by
  unfold begin
  rw [show (Frame.ofPulses t o length []).sequence.hasJumps = false from h]
  rfl

theorem plain_bare (signal : Int → Int) (lines length : Int) : (bare length).draft.Plain signal lines length := by
  have hget : (bare length).draft.board.get 0 = .ending length := rfl
  have hlist : (bare length).draft.list = [0] := rfl
  have hone : (bare length).draft.board.size = 1 := rfl
  have htarget : ((bare length).draft.board.get 0).target? = none := rfl
  have hreached : ((bare length).draft.board.get 0).reachedBy = [] := rfl
  have hmem : ∀ l ∈ (bare length).draft.list, l = 0 := fun l hl => List.mem_singleton.1 (hlist ▸ hl)
  refine ⟨⟨fun l hl => ?_, by rw [hlist]; exact List.nodup_singleton 0, fun l hl g hg => ?_, fun g hg l hl => ?_⟩,
    fun l hl => ?_, hlist ▸ List.mem_singleton.2 rfl, hget, fun l hl _ => hmem l hl⟩
  · rw [hmem l hl, hone]
    exact Nat.one_pos
  · rw [hmem l hl, htarget] at hg
    cases hg
  · rw [hmem g hg, hreached] at hl
    cases hl
  · obtain ⟨hl, hset⟩ := Draft.mem_sets.1 hl
    rw [hmem l hl, hget] at hset
    cases hset

theorem faithful_bare (signal : Int → Int) (lines length : Int) : (bare length).draft.Faithful signal lines := by
  have hnil : (bare length).draft.sets = [] := rfl
  exact ⟨fun l hl => absurd (hnil ▸ hl) List.not_mem_nil, fun l hl => absurd (hnil ▸ hl) List.not_mem_nil⟩

end Sequence

theorem Draft.Faithful.of_perm {signal : Int → Int} {lines : Int} {d d' : Draft} (h : d.Faithful signal lines)
    (hb : d'.board = d.board) (hlist : d'.list.Perm d.list) : d'.Faithful signal lines := by
  have hsets : ∀ l ∈ d'.sets, l ∈ d.sets := fun l hl => by
    rw [mem_sets, hlist.mem_iff, hb] at hl
    exact mem_sets.2 hl
  refine ⟨fun l hl => ?_, fun l hl => ?_⟩
  · rw [hb]
    exact h.inside l (hsets l hl)
  · rw [hb]
    exact h.trueTo l (hsets l hl)

/-- The pulses of a sequence without jumps make an outline. -/
theorem Pulse.exists_outline {h : Hardware} {ps : List Pulse} {length : Int} (hs : Sound h ps)
    (hbounds : ∀ p ∈ ps, 0 ≤ p.interval.start ∧ p.interval.finish ≤ length - 2) (controlMask : Int) :
    ∃ d, (((Sequence.bare length).draft.draw ps).mergeSets controlMask).outcome = .ok d ∧
      d.Plain (stateAt ps) (Register.complement h.register) length ∧
      d.Faithful (stateAt ps) (Register.complement h.register) ∧
      d.list.Pairwise fun x y => d.board.time x < d.board.time y := by
  have hbare := Sequence.plain_bare (stateAt ps) (Register.complement h.register) length
  have hdrawn := hbare.draw fun p hp => ⟨plain_rise hs hp (hbounds p hp).1 (hbounds p hp).2,
    plain_fall hs hp (hbounds p hp).1 (hbounds p hp).2⟩
  have houtline := outlines_draw hs hbare.linked
    (Sequence.faithful_bare (stateAt ps) (Register.complement h.register) length)
  obtain ⟨d, hd⟩ := hdrawn.exists_mergeSets houtline.toFaithful controlMask
  obtain ⟨hplain, hinc⟩ := hdrawn.of_mergeSets hd
  obtain ⟨us, hmerged⟩ := hdrawn.linked.merged hdrawn.setsInside hd
  exact ⟨d, hd, hplain, (hmerged.outlines hdrawn.linked houtline).toFaithful, hinc⟩

/-- The SET of tick 0 is merged into an outline. -/
theorem Frame.exists_started {f : Frame} {h : Hardware} {d : Draft} (hregister : f.register = h.register)
    (hs : Pulse.Sound h f.pulses) (hlength : 2 ≤ f.length)
    (hd : d.Plain (Pulse.stateAt f.pulses) f.register.complement f.length)
    (hf : d.Faithful (Pulse.stateAt f.pulses) f.register.complement) (controlMask : Int) :
    ∃ d', ((d.push f.starting).mergeSets controlMask).outcome = .ok d' ∧
      d'.Plain (Pulse.stateAt f.pulses) f.register.complement f.length ∧
      (d'.list.Pairwise fun x y => d'.board.time x < d'.board.time y) ∧ ∃ l ∈ d'.sets, d'.board.time l = 0 := by
  have hstarting := f.plain_starting hregister hs hlength
  have hplain := hd.push hstarting rfl rfl
  have hcont : Draft.Continues (Pulse.stateAt f.pulses) f.register.complement [] [] [] d (d.push f.starting) :=
    Draft.continues_push hd.linked hf rfl (by simp [starting]) rfl hstarting.inside fun _ _ _ => rfl
  obtain ⟨d', hmerge⟩ := hplain.exists_mergeSets hcont.faithful controlMask
  obtain ⟨hplain', hinc⟩ := hplain.of_mergeSets hmerge
  obtain ⟨us, hmerged⟩ := hplain.linked.merged hplain.setsInside hmerge
  -- the SET of tick 0 has an heir, at its tick
  have hmem : d.board.size ∈ (d.push f.starting).list := List.mem_append_right _ (List.mem_singleton.2 rfl)
  have hdesc := hmerged.descends hplain.linked hplain.setsInside
  refine ⟨d', hmerge, hplain', hinc, _, Draft.mem_sets.2 ⟨hdesc.mem _ hmem, ?_⟩, (hdesc.time _ hmem).trans ?_⟩
  · rw [hdesc.isSet _ hmem, Draft.get_push_size]
    rfl
  · rw [Board.time_eq, Draft.get_push_size]
    rfl

theorem Layout.exists_static [Collation] {s : Sequence} {variant : Binary64} {o : Options} {t : Timeline} {length : Int}
    (hverify : s.verify.outcome = .ok ()) (hjumps : s.hasJumps = false)
    (hvariant : (!variant.isWhole || decide (variant < 0) || decide (s.variants ≤ variant)) = false)
    (ht : Timeline.ofVariant s variant = .ok t) (hseq : t.sequence = s) (hresolves : t.Resolves)
    (hlength : (Sequence.ticks t o).outcome = .ok length) (htwo : 2 ≤ length) (hmax : length ≤ TickLine.maxLength) :
    ∃ k : Layout s variant o, k.timeline = t ∧ k.length = length ∧ k.Static := by
  have hs := Sequence.verified_of_verify hverify
  obtain ⟨pulses, hpulses⟩ := Pulse.exists_of_channels hs hseq hresolves (length - 1)
  have hunit : 0 < t.sequence.hardware.delayUnit := hseq ▸ hs.hardware.unit
  let f : Frame := .ofPulses t o length pulses.flatten
  have hsound : Pulse.Sound t.sequence.hardware pulses.flatten :=
    Pulse.sound_of_channels (hseq ▸ hs.hardware) (hseq ▸ hs.channels) hpulses
  obtain ⟨outlined, houtlined, hoplain, hofaithful, hoinc⟩ := Pulse.exists_outline hsound
    (fun p hp => Pulse.bounds_of_channels hpulses hunit hresolves p hp (hsound.nonempty p hp)) f.register.mask
  let joined := outlined.supersede outlined.list
  have hjoined : (outlined.mergeSets f.register.mask).outcome = .ok joined :=
    Draft.mergeSets_of_increasing hoinc f.register.mask
  have hperm : joined.sort.list.Perm outlined.list := Draft.perm_sorted _ _
  have hjplain : joined.sort.Plain (Pulse.stateAt f.pulses) f.register.complement length := hoplain.of_perm rfl hperm
  obtain ⟨merged, hmerge, hmplain, hminc, hstart⟩ := f.exists_started rfl hsound htwo hjplain
    (hofaithful.of_perm rfl hperm) f.register.mask
  obtain ⟨carried, ledger, placed, settled, filled, final, hcarried, hledger, hplaced, hsettled, hfilled, hfinal,
    hcount, hscheduled, hplain, htime⟩ :=
      hmplain.exists_completion hminc hstart (show 1 ≤ length by omega) hmax f.register.mask
  obtain ⟨addressed, haddressed, -⟩ := hscheduled.exists_addressed s.hardware.polarityMask
  have hslots : (Build.slotsOf f).outcome = .ok [] := by
    have hnil : f.sequence.jumps = [] := by
      change t.sequence.jumps = []
      rw [hseq]
      simpa [Sequence.hasJumps] using hjumps
    unfold Build.slotsOf
    rw [hnil]
    rfl
  exact ⟨{
    timeline := t, length, pulses, begun := Sequence.bare length, outlined, slots := []
    emitted := { Sequence.bare length with draft := outlined }, joined, merged, carried, ledger, placed, settled, filled
    final, addressed
    verified := hverify, variant_ok := hvariant, timeline_eq := ht, length_eq := hlength, two_le := not_lt.2 htwo
    begun_eq := Sequence.begin_of_not_hasJumps (hseq ▸ hjumps), pulses_eq := hpulses, outlined_eq := houtlined
    slots_eq := hslots, emitted_eq := rfl, joined_eq := hjoined
    starting_inside := Bits.without_eq_zero.2 (f.plain_starting rfl hsound htwo).inside, merged_eq := hmerge
    carried_eq := hcarried, ledger_eq := hledger, placed_eq := hplaced, settled_eq := hsettled, filled_eq := hfilled
    final_eq := hfinal, final_length := hcount, addressed_eq := haddressed }, rfl, rfl, hplain, htime⟩

end PulseSequencer
