import PulseSequencer.Proofs.MergeOrder
import PulseSequencer.Proofs.ReorderedJumps
import PulseSequencer.Proofs.Truncation

/-!
# The order in which a sequence is listed

Two sequences that list the same channels, windows, jumps and conditions in different orders are compiled to the same
words. Their SETs are the same before the jumps, apart from labels, and their jumps take the same ticks; the rest of the
compilation follows the same steps.

* `Opening.cells_drawn`, `Opening.loose_drawn` : the SETs before the jumps, which can be listed in any order;
* `Draft.Mirrored.linked_eq`, `Layout.encode_of_mirrored` : words do not depend on labels;
* `Opening.Over`, `Layout.exists_reordered` : a reordered sequence goes through the same stages;
* `Sequence.compile_of_reorders` : and so it has the same words.
-/

namespace PulseSequencer

/-! ## The SETs before the jumps -/

namespace Draft

theorem cells_push {d : Draft} (hd : ∀ l ∈ d.list, l < d.board.size) (i : Instruction) :
    (d.push i).cells = d.cells ++ [i] := by
  rw [cells, list_push, List.map_append, List.map_singleton, get_push_size, cells,
    List.map_congr_left fun l hl => get_push_of_lt i (hd l hl)]

theorem valid_push {d : Draft} (hd : ∀ l ∈ d.list, l < d.board.size) (i : Instruction) :
    ∀ l ∈ (d.push i).list, l < (d.push i).board.size := by
  intro l hl
  rw [size_push]
  rcases List.mem_append.1 hl with hl | hl
  · exact Nat.lt_succ_of_lt (hd l hl)
  · rw [List.mem_singleton.1 hl]
    exact Nat.lt_succ_self _

/-- The SETs of the pulses come last. -/
theorem cells_draw {ps : List Pulse} : ∀ {d : Draft}, (∀ l ∈ d.list, l < d.board.size) →
    (d.draw ps).cells = d.cells ++ ps.flatMap fun p => [p.rise, p.fall] := by
  induction ps with
  | nil => exact fun _ => (List.append_nil _).symm
  | cons p ps ih =>
    intro d hd
    have hrise := valid_push hd p.rise
    change (((d.push p.rise).push p.fall).draw ps).cells = _
    rw [ih (valid_push hrise p.fall), cells_push hrise, cells_push hd, List.flatMap_cons, List.append_assoc,
      List.append_assoc]
    rfl

end Draft

namespace Opening

variable {s : Sequence} {variant : Binary64} {o : Options} (k : Opening s variant o)

/-- The instructions of the start: the END, after a control write of its own block if there are jumps. -/
theorem cells_begun : k.begun.draft.cells = (if s.hasJumps then
    [k.frame.writing 1 0 (some Block.startName), k.frame.clearing 0 (some Block.startName)] else []) ++
      [.ending k.length] := by
  obtain ⟨b₁, hb₁, hbegun⟩ := k.begun_cases
  rw [hbegun]
  rcases hb₁ with ⟨hjumps, l, hw⟩ | ⟨hjumps, rfl⟩
  · obtain ⟨-, -, -, rfl⟩ := Build.writeId_eq_ok.1 hw
    rw [if_pos hjumps]
    rfl
  · rw [if_neg (by rw [hjumps]; exact Bool.false_ne_true)]
    rfl

theorem cells_drawn : k.drawn.cells = k.begun.draft.cells ++ k.frame.pulses.flatMap fun p => [p.rise, p.fall] :=
  Draft.cells_draw k.ready_begun.linked.valid

theorem jumpless_drawn : Build.Jumpless k.frame k.drawn :=
  (Sequence.ready_of_begin k.begun_eq).2.of_grows k.ready_begun.linked k.continues_drawn.grows

/-- Only the start is in a block, and only it writes the register. -/
theorem block_drawn {i : Instruction} (hi : i ∈ k.drawn.cells) (hset : i.isSet = true) :
    i.block = some Block.startName ∨
      (i.block = none ∧ ∀ j, Bits.bit i.drive.mask j = true → Bits.bit k.frame.register.complement j = true) := by
  rw [k.cells_drawn, k.cells_begun, List.mem_append, List.mem_append] at hi
  rcases hi with (hi | hi) | hi
  · refine .inl ?_
    split at hi
    · simp only [List.mem_cons, List.not_mem_nil, or_false] at hi
      rcases hi with rfl | rfl <;> rfl
    · cases hi
  · rw [List.mem_singleton.1 hi] at hset
    cases hset
  · obtain ⟨p, hp, hi⟩ := List.mem_flatMap.1 hi
    have hwithin : ∀ j, Bits.bit (Bits.single p.line) j = true → Bits.bit k.frame.register.complement j = true := by
      intro j hj
      rw [k.register_eq]
      exact Pulse.within_single k.sound hp hj
    simp only [List.mem_cons, List.not_mem_nil, or_false] at hi
    rcases hi with rfl | rfl
    · exact .inr ⟨rfl, hwithin⟩
    · exact .inr ⟨rfl, hwithin⟩

/-- The SETs of the start are at different ticks. -/
theorem staggered_drawn (hhigh : s.hasJumps = true → k.frame.highTime ≠ 0) :
    k.drawn.cells.Pairwise fun a c => a.isSet = true → c.isSet = true →
      a.block = none ∨ c.block = none ∨ a.time ≠ c.time := by
  have hfree : ∀ c ∈ k.frame.pulses.flatMap fun p => [p.rise, p.fall], c.block = none := by
    intro c hc
    obtain ⟨p, -, hc⟩ := List.mem_flatMap.1 hc
    simp only [List.mem_cons, List.not_mem_nil, or_false] at hc
    rcases hc with rfl | rfl <;> rfl
  rw [k.cells_drawn]
  refine List.pairwise_append.2 ⟨?_, ?_, fun a _ c hc _ _ => .inr (.inl (hfree c hc))⟩
  · rw [k.cells_begun]
    split
    · rename_i hjumps
      have hne : (0 : Int) ≠ 0 + k.frame.highTime := by
        have := hhigh hjumps
        omega
      simp only [List.cons_append, List.nil_append, List.pairwise_cons, List.mem_cons, List.not_mem_nil, or_false,
        forall_eq_or_imp, forall_eq, List.Pairwise.nil, and_true, IsEmpty.forall_iff, implies_true]
      exact ⟨⟨fun _ _ => .inr (.inr hne), fun _ h => by cases h⟩, fun _ h => by cases h⟩
    · exact List.pairwise_singleton _ _
  · exact List.pairwise_of_forall_mem_list fun a ha _ _ _ _ => .inl (hfree a ha)

/-- The SETs before the jumps can be listed in any order. -/
theorem loose_drawn (hhigh : s.hasJumps = true → k.frame.highTime ≠ 0) : k.drawn.Loose := by
  have hready := k.ready_drawn
  have hmem : ∀ {l}, l ∈ k.drawn.sets → k.drawn.board.get l ∈ k.drawn.cells ∧ (k.drawn.board.get l).isSet = true :=
    fun {l} hl => ⟨List.mem_map.2 ⟨l, (Draft.mem_sets.1 hl).1, rfl⟩, (Draft.mem_sets.1 hl).2⟩
  refine ⟨hready.linked, fun l hl => hready.linked.reachedBy_eq_nil (fun m hm => k.jumpless_drawn.target? hready hm) hl,
    k.outlines_drawn.inside, ⟨Block.startName, fun l hl => ?_⟩, ?_, ⟨k.frame.final, k.jumpless_drawn⟩⟩
  · obtain ⟨hcell, hset⟩ := hmem hl
    exact (k.block_drawn hcell hset).symm.imp And.left id
  · have hstaggered := (List.pairwise_map.1 (k.staggered_drawn hhigh)).filter fun l => (k.drawn.board.get l).isSet
    refine hstaggered.imp_of_mem fun {x y} hx hy h htime => ?_
    obtain ⟨hcellx, hsetx⟩ := hmem hx
    obtain ⟨hcelly, hsety⟩ := hmem hy
    have hfree : (k.drawn.board.get x).block = none ∨ (k.drawn.board.get y).block = none :=
      (h hsetx hsety).imp_right fun h => h.resolve_right fun hne => hne htime
    refine ⟨hfree, fun i hix hiy => ?_⟩
    -- one of them is a SET of a pulse, so the bit is that of a line, where both are true to the signal
    have hline : Bits.bit k.frame.register.complement i = true := by
      rcases hfree with hnone | hnone
      · rcases k.block_drawn hcellx hsetx with hb | ⟨-, hb⟩
        · cases hnone.symm.trans hb
        · exact hb i hix
      · rcases k.block_drawn hcelly hsety with hb | ⟨-, hb⟩
        · cases hnone.symm.trans hb
        · exact hb i hiy
    have hx' := k.outlines_drawn.trueTo x hx i hline hix
    have hy' := k.outlines_drawn.trueTo y hy i hline hiy
    rw [hx', hy', htime]

end Opening

/-! ## Words -/

theorem idxOf_map_of_injOn {f : Label → Label} {S : Set Label} (hf : Set.InjOn f S) {x : Label} (hx : x ∈ S)
    {xs : List Label} (hxs : ∀ y ∈ xs, y ∈ S) : (xs.map f).idxOf (f x) = xs.idxOf x := by
  induction xs with
  | nil => rfl
  | cons y ys ih =>
    have hy : f y = f x ↔ y = x := hf.eq_iff (hxs y List.mem_cons_self) hx
    rw [List.map_cons, List.idxOf_cons, List.idxOf_cons, ih fun z hz => hxs z (List.mem_cons_of_mem _ hz)]
    by_cases heq : y = x
    · rw [heq, beq_self_eq_true, beq_self_eq_true]
    · rw [beq_false_of_ne heq, beq_false_of_ne (mt hy.1 heq)]

namespace Draft

variable {d d' : Draft} {φ : Label → Label} {e : Int} {S : Set Label}

/-- A word does not depend on labels. -/
theorem Mirrored.linked_eq (h : d.Mirrored φ e S d') (hd : d.Scheduled) {polarity : Int} {l : Label} (hl : l ∈ d.list)
    (henc : d.Encodable polarity l) : d'.Encodable polarity (φ l) ∧ d'.linked polarity (φ l) = d.linked polarity l := by
  have hcell := h.board.cell l (h.live l hl)
  have hclosed := hd.closed l hl
  unfold Encodable linked at *
  rw [hcell]
  unfold Instruction.mirror Instruction.retarget
  unfold Instruction.target? at hclosed
  cases hact : (d.board.get l).action with
  | wait duration =>
    simp only [hact] at henc ⊢
    exact ⟨henc, trivial⟩
  | set drive =>
    simp only [hact] at henc ⊢
    exact ⟨henc, trivial⟩
  | stop =>
    simp only [hact]
    exact ⟨trivial, trivial⟩
  | jump always channel threshold g =>
    simp only [hact] at henc hclosed ⊢
    have hg : g ∈ d.list := hclosed g rfl
    have hidx : d'.list.idxOf (φ g) = d.list.idxOf g := by
      rw [h.list]
      exact idxOf_map_of_injOn h.board.inj (h.live g hg) h.live
    rw [hidx, h.board.cell g (h.live g hg)]
    exact ⟨⟨List.mem_map.2 ⟨l, henc.1, rfl⟩, henc.2⟩, rfl⟩

end Draft

/-- Compilations that are the same under other labels have the same words. -/
theorem Layout.encode_of_mirrored [Collation] {s s' : Sequence} {variant variant' : Binary64} {o o' : Options}
    (k : Layout s variant o) (k' : Layout s' variant' o')
    (hpolarity : s'.hardware.polarityMask = s.hardware.polarityMask) {φ : Label → Label} {S : Set Label}
    (h : k.settled.Mirrored φ (k.length - 1) S k'.settled) {words : List Word}
    (hwords : k.addressed.encode = .ok words) : k'.addressed.encode = .ok words := by
  have hcloses := k.closes_settled
  have htime : ∀ l ∈ k.settled.list, l ∈ S ∧ l < k.settled.board.size ∧
      ((k.settled.board.get l).mirror φ (k.length - 1)).time = k.settled.board.time l := by
    intro l hl
    refine ⟨h.live l hl, k.linked_settled.valid l hl, ?_⟩
    by_cases hend : l = k.frame.final
    · rw [hend, Instruction.mirror, hcloses.stop, hcloses.time]
      rfl
    · exact Instruction.time_mirror (hcloses.other l hl hend).1
  obtain ⟨b, hfill, hboard, hlive⟩ := Draft.Mirrored.fillFrom_mirrored h.board htime (by simp) k.fill_final
  have hfill' := k'.fill_final
  rw [h.list] at hfill'
  obtain ⟨hlist, rfl⟩ := Prod.mk.inj (Except.ok.inj (hfill'.symm.trans hfill))
  have hfinal : k.final.Mirrored φ (k.length - 1) S k'.final := ⟨hboard, hlist, hlive⟩
  obtain ⟨hencodable, rfl⟩ := (k.addressed_final.encode_eq_ok k.scheduled_final).1 hwords
  refine (k'.addressed_final.encode_eq_ok k'.scheduled_final).2 ⟨fun l hl => ?_, ?_⟩
  · rw [hlist] at hl
    obtain ⟨x, hx, rfl⟩ := List.mem_map.1 hl
    rw [hpolarity]
    exact (hfinal.linked_eq k.scheduled_final hx (hencodable x hx)).1
  · rw [hlist, List.map_map, hpolarity]
    refine List.map_congr_left fun l hl => ?_
    exact congrArg _ (hfinal.linked_eq k.scheduled_final hl (hencodable l hl)).2.symm

/-! ## Reordered sequences -/

/-- Where the register, its high time and the END are the same, the start is the same. -/
theorem Sequence.begin_congr {f f' : Frame} {b b' : Build} (hjumps : f'.sequence.hasJumps = f.sequence.hasJumps)
    (hregister : f'.register = f.register) (hhigh : f'.highTime = f.highTime)
    (hterminator : f'.terminator = f.terminator) (hfinal : f'.final = f.final) (h : (begin f b).outcome = .ok b') :
    (begin f' b).outcome = .ok b' := by
  obtain ⟨b₁, hb₁, rfl⟩ := begin_eq_ok h
  unfold begin
  rw [hjumps, hfinal]
  rcases hb₁ with ⟨hj, l, hw⟩ | ⟨hj, rfl⟩
  · have hw' : b.writeId f' 0 (some Block.startName) = .ok (l, b₁) := by
      rw [Build.writeId_eq_ok] at hw ⊢
      unfold Frame.writing Frame.clearing at hw ⊢
      rwa [hregister, hhigh, hterminator]
    rw [if_pos hj]
    exact Attempt.bind_eq_ok.2 ⟨(l, b₁), Attempt.ofExcept_eq_ok.2 hw', rfl⟩
  · rw [if_neg (by rw [hj]; exact Bool.false_ne_true)]
    rfl

theorem Sequence.ticks_over {t : Timeline} {s' : Sequence} {o : Options} {length : Int} (h : t.sequence.Reorders s')
    (hverify : t.sequence.verify.outcome = .ok ()) (hticks : (ticks t o).outcome = .ok length) :
    (ticks (t.over s') o).outcome = .ok length := by
  have hunit : (t.over s').sequence.hardware.delayUnit = t.sequence.hardware.delayUnit := by
    change s'.hardware.delayUnit = _
    rw [h.hardware]
  have hfull : (t.over s').sequence.length = t.sequence.length := by
    change s'.length = _
    rw [h.rest]
  unfold ticks at hticks ⊢
  simp only [hunit, hfull] at hticks ⊢
  by_cases htruncate : (!o.truncate) = true
  · rw [if_pos htruncate] at hticks ⊢
    exact hticks
  · rw [if_neg htruncate] at hticks ⊢
    obtain ⟨latest, hlatest, hticks⟩ := Attempt.bind_eq_ok.1 hticks
    refine Attempt.bind_eq_ok.2 ⟨latest, Attempt.ofExcept_eq_ok.2 ?_, ?_⟩
    · exact Timeline.latest_over h hverify (Attempt.ofExcept_eq_ok.1 hlatest)
    · split at hticks
      · rename_i hnone
        rw [if_pos hnone]
        exact hticks
      · rename_i hsome
        rw [if_neg hsome]
        exact hticks

section Reordered

variable {s s' : Sequence} {o : Options}

/-- The openings of a sequence and of a reordered one: the same times, length and start, and the same pulses in some
order. -/
structure Opening.Over {variant : Binary64} (k : Opening s variant o) (k' : Opening s' variant o) : Prop where
  reorders : s.Reorders s'
  timeline : k'.timeline = k.timeline.over s'
  length : k'.length = k.length
  begun : k'.begun = k.begun
  pulses : k'.frame.pulses.Perm k.frame.pulses

theorem Opening.exists_over {variant : Binary64} (k : Opening s variant o) (h : s.Reorders s')
    (hverify : s'.verify.outcome = .ok ()) : ∃ k' : Opening s' variant o, k.Over k' := by
  have ht : k.timeline.sequence.Reorders s' := by rwa [k.sequence_eq]
  have hv : k.timeline.sequence.verify.outcome = .ok () := by
    rw [k.sequence_eq]
    exact k.verified
  have htimeline : Timeline.ofVariant s' variant = .ok (k.timeline.over s') := by
    obtain ⟨values, hvalues, htimeline⟩ := Except.bind_eq_ok.1 k.timeline_eq
    refine Except.bind_eq_ok.2 ⟨values, ?_, ?_⟩
    · rw [h.rest]
      exact hvalues
    · rw [← Except.ok.inj htimeline]
      rfl
  have hbegun : (Sequence.begin (.ofPulses (k.timeline.over s') o k.length []) (.blank k.length)).outcome =
      .ok k.begun := by
    refine Sequence.begin_congr (f := .ofPulses k.timeline o k.length []) ht.hasJumps ?_ rfl rfl rfl k.begun_eq
    rw [Frame.register, Frame.register]
    exact congrArg _ ht.hardware
  obtain ⟨pulses, hpulses, hperm⟩ := Pulse.channels_over ht hv k.pulses_eq
  refine ⟨⟨k.timeline.over s', k.length, pulses, k.begun, hverify, ?_, htimeline, Sequence.ticks_over ht hv k.length_eq,
    k.two_le, hbegun, hpulses⟩, h, rfl, rfl, rfl, hperm.flatten⟩
  rw [h.rest]
  exact k.variant_ok

theorem Opening.verify_frame {variant : Binary64} (k : Opening s variant o) :
    k.frame.sequence.verify.outcome = .ok () := by
  rw [show k.frame.sequence = s from k.sequence_eq]
  exact k.verified

namespace Opening.Over

variable {v : Nat} {k : Opening s (.ofNat v) o} {k' : Opening s' (.ofNat v) o} (h : k.Over k')

include h

theorem sequence : k.frame.sequence.Reorders k'.frame.sequence := by
  rw [show k.frame.sequence = s from k.sequence_eq, show k'.frame.sequence = s' from k'.sequence_eq]
  exact h.reorders

theorem values : k'.frame.timeline.values = k.frame.timeline.values := by
  change k'.timeline.values = _
  rw [h.timeline]
  rfl

theorem register : k'.frame.register = k.frame.register := by
  rw [Frame.register, Frame.register, h.sequence.hardware]

/-- The same SETs are drawn, in some order. -/
theorem perm_drawn : k'.drawn.cells.Perm k.drawn.cells := by
  rw [k.cells_drawn, k'.cells_drawn, h.begun]
  exact (h.pulses.flatMap_right _).append_left _

/-- The pulses are merged to the same SETs, under other labels. -/
theorem exists_outlined (hhigh : s.hasJumps = true → k.frame.highTime ≠ 0) {outlined : Draft}
    (houtlined : (k.drawn.mergeSets k.frame.register.mask).outcome = .ok outlined) :
    ∃ outlined' φ S, (k'.drawn.mergeSets k'.frame.register.mask).outcome = .ok outlined' ∧
      outlined.Mirrored φ (k.length - 1) S outlined' ∧ k.frame.final ∈ S ∧ k'.frame.final = φ k.frame.final := by
  have hloose := k.loose_drawn hhigh
  have hhigh' : s'.hasJumps = true → k'.frame.highTime ≠ 0 := by
    rw [h.reorders.hasJumps]
    exact hhigh
  have hloose' := k'.loose_drawn hhigh'
  obtain ⟨outlined', houtlined'⟩ := hloose'.exists_mergeSets k'.frame.register.mask
  have hcells : outlined'.cells = outlined.cells := by
    refine hloose.cells_mergeSets_perm hloose' h.perm_drawn houtlined ?_
    rw [← h.register]
    exact houtlined'
  obtain ⟨hready, hjumpless⟩ := k.ready_outlined houtlined
  obtain ⟨hready', hjumpless'⟩ := k'.ready_outlined houtlined'
  have hend : ∀ l ∈ outlined.list, (outlined.board.get l).action = .stop → outlined.board.time l = k.length - 1 := by
    intro l hl hstop
    obtain ⟨rs, hget⟩ := hready.ending
    rw [Board.time, hjumpless l hl (by rw [Instruction.isSet, hstop]), hget]
    rfl
  have hm := Draft.mirrored_of_cells hready.linked hready'.linked hcells (fun l hl => hjumpless.target? hready hl) hend
  have hlive := hm.live _ hready.final
  have hmem : Draft.relabel outlined outlined' k.frame.final ∈ outlined'.list := by
    rw [hm.list]
    exact List.mem_map.2 ⟨_, hready.final, rfl⟩
  have hset : (outlined'.board.get (Draft.relabel outlined outlined' k.frame.final)).isSet = false := by
    rw [hm.board.cell _ hlive, Instruction.isSet_mirror, Instruction.isSet, hready.stop]
  exact ⟨outlined', _, _, houtlined', hm, hlive, (hjumpless' _ hmem hset).symm⟩

/-- The jumps take the same ticks. -/
theorem exists_slots {slots : List Slot} (hlimit : k.length ≤ Binary64.significandLimit)
    (hslots : (Build.slotsOf k.frame).outcome = .ok slots) :
    ∃ slots', (Build.slotsOf k'.frame).outcome = .ok slots' ∧ Rearranged Slot.Twin slots slots' := by
  have hterminator : k.frame.terminator ≤ Binary64.significandLimit := (Int.sub_le_self _ zero_le_one).trans hlimit
  refine Build.exists_slotsOf h.sequence k.verify_frame h.values h.length (fun {raw} hall => ?_) hterminator hslots
  rw [show k.frame.sequence = s from k.sequence_eq] at hall
  refine List.pairwise_map.2 (pairwise_of_forall₂ hall k.jumpTimes.apart fun a b x y hne hx hy => ?_)
  exact hne _ _ (Build.serves_of_slotOf hx).time (Build.serves_of_slotOf hy).time

end Opening.Over

/-- A reordered sequence goes through the same stages. -/
theorem Layout.exists_reordered [Collation] {v : Nat} (k : Layout s (.ofNat v) o) (h : s.Reorders s')
    (hverify : s'.verify.outcome = .ok ()) :
    ∃ (k' : Layout s' (.ofNat v) o) (φ : Label → Label) (S : Set Label),
      k.settled.Mirrored φ (k.length - 1) S k'.settled := by
  obtain ⟨k', hover⟩ := k.exists_over h hverify
  obtain ⟨outlined, φ, S, houtlined, hm, hlive, hfinal⟩ := hover.exists_outlined k.highTime_ne_zero k.outlined_eq
  obtain ⟨slots, hslots, htwins⟩ := hover.exists_slots (k.length_le.trans (by decide)) k.slots_eq
  have hparallel : Layout.Parallel φ S k k' outlined slots :=
    { outlined_eq := houtlined
      slots_eq := hslots
      frame := Frame.mirrored_of_reorders hover.sequence k.verify_frame hover.values hover.length rfl hover.pulses
        htwins k.names_slots ⟨hlive, hfinal⟩
      nextId := by rw [hover.begun]
      outlined := by
        rw [hover.length]
        exact hm
      slots := (htwins.sortBy (fun _ _ htwin => htwin.tick) (Build.ticks_of_slotsOf k.slots_eq)).imp
        fun _ _ htwin => htwin.mirrored
      fits := by
        rw [hover.length]
        exact k.length_le }
  obtain ⟨k₁, rfl, hsettled⟩ := hparallel.exists_layout
  exact ⟨k₁, φ, S, hover.length ▸ hsettled⟩

/-- What a reordered sequence is compiled to. -/
theorem Sequence.exists_compile_of_reorders [Collation] {v : Nat} {c : Compiled} (h : s.Reorders s')
    (hverify : s'.verify.outcome = .ok ()) (hc : (s.compile (.ofNat v) o).outcome = .ok c) :
    ∃ c', (s'.compile (.ofNat v) o).outcome = .ok c' ∧ c'.words = c.words := by
  obtain ⟨k, hk⟩ := Layout.exists_of_compile hc
  obtain ⟨k', φ, S, hmirrored⟩ := k.exists_reordered h hverify
  have hpolarity : s'.hardware.polarityMask = s.hardware.polarityMask := by rw [h.hardware]
  have hwords := k.encode_of_mirrored k' hpolarity hmirrored hk
  have hcompile := k'.outcome_compile
  rw [Attempt.outcome_ofExcept_ok hwords] at hcompile
  exact ⟨_, hcompile, rfl⟩

end Reordered

/-- The order in which a sequence lists its channels, windows, jumps and conditions does not matter to what it is
compiled to: for any options, a variant of two such sequences can be compiled or cannot be compiled, and then has the
same words. -/
theorem Sequence.compile_of_reorders [Collation] {s s' : Sequence} (h : s.Reorders s')
    (hverify : s.verify.outcome = .ok ()) (hverify' : s'.verify.outcome = .ok ()) (v : Nat) (o : Options) :
    (∃ c c', (s.compile (.ofNat v) o).outcome = .ok c ∧ (s'.compile (.ofNat v) o).outcome = .ok c' ∧
        c'.words = c.words) ∨
      ∃ e e', (s.compile (.ofNat v) o).outcome = .error e ∧ (s'.compile (.ofNat v) o).outcome = .error e' := by
  cases hc : (s.compile (.ofNat v) o).outcome with
  | ok c =>
    obtain ⟨c', hc', hwords⟩ := exists_compile_of_reorders h hverify' hc
    exact .inl ⟨c, c', rfl, hc', hwords⟩
  | error e =>
    cases hc' : (s'.compile (.ofNat v) o).outcome with
    | ok c' =>
      obtain ⟨c, hok, -⟩ := exists_compile_of_reorders h.symm hverify hc'
      cases hc.symm.trans hok
    | error e' => exact .inr ⟨e, e', rfl, rfl⟩

/-- The gated sequence with its channels, the windows of the laser and the conditions of its jump listed backwards. -/
def Bench.relisted : Sequence := { gated with
  channels := [
    ⟨"detector", [⟨"gate", .absolute 3, .absolute 5⟩], .control [{ choose with
      action := .branch "gate"
        [.otherwise .pass, .between 3 5 (.destination (.start "late")), .atLeast 5 .terminate] }]⟩,
    ⟨"shutter", [⟨"open", .absolute 16, .absolute 28⟩], .output⟩,
    ⟨"laser", [⟨"late", .absolute 26, .absolute 30⟩, ⟨"early", .absolute 14, .absolute 20⟩], .output⟩] }

/-- Listed backwards, the gated sequence is compiled to the same words. -/
theorem Bench.gated_relisted :
    gated.Reorders relisted ∧ gated.verify.outcome = .ok () ∧ relisted.verify.outcome = .ok () ∧
    ∃ c c', (gated.compile (.ofNat 0) quick).outcome = .ok c ∧ (relisted.compile (.ofNat 0) quick).outcome = .ok c' ∧
      c'.words = c.words := by
  have hreorders : gated.Reorders relisted := by
    refine ⟨⟨gated.channels.reverse, List.reverse_perm _, .cons ⟨rfl, .refl _, .control ?_⟩
      (.cons ⟨rfl, .refl _, .output⟩ (.cons ⟨rfl, .swap _ _ _, .output⟩ .nil))⟩, rfl⟩
    exact ⟨_, .refl _, .cons ⟨rfl, rfl, .branch _ (by decide +kernel)⟩ .nil⟩
  have hverify : gated.verify.outcome = .ok () := by decide +kernel
  have hverify' : relisted.verify.outcome = .ok () := by decide +kernel
  refine ⟨hreorders, hverify, hverify', ?_⟩
  rcases Sequence.compile_of_reorders hreorders hverify hverify' 0 quick with hboth | ⟨e, -, he, -⟩
  · exact hboth
  · obtain ⟨c, hc⟩ := exists_compile_gated
    cases he.symm.trans hc

end PulseSequencer
