import PulseSequencer.Proofs.Checks
import PulseSequencer.Proofs.Descent
import PulseSequencer.Proofs.Layout
import PulseSequencer.Proofs.Placement
import PulseSequencer.Proofs.Slots

/-!
# What every stage keeps

The stages of a compilation one by one, up to the placed list. All of them are linked and follow the pulses of the
sequence; the jumps of the sequence are in them as rows.

* `Opening.sound`, `Opening.ready_begun`, `Sketch.outlines_outlined` : pulses, and the drafts before the jumps;
* `Sketch.branches` : the jumps;
* `Score.heir`, `Score.descends` : from the draft with the jumps to the list that is placed;
* `Score.carries_ledger`, `Layout.settled_spec` : every SET carries the state of its tick.
-/

namespace PulseSequencer

/-- A label that is on the board already joins the list. -/
theorem Draft.Linked.append_one {d : Draft} (hd : d.Linked) {g : Label} (hlt : g < d.board.size) (hnot : g ∉ d.list)
    (htarget : (d.board.get g).target? = none) (hreached : (d.board.get g).reachedBy = []) : (d.append [g]).Linked := by
  have hmem : ∀ {l}, l ∈ (d.append [g]).list → l ∈ d.list ∨ l = g := fun hl =>
    (List.mem_append.1 hl).imp_right List.mem_singleton.1
  refine ⟨fun l hl => ?_, ?_, fun l hl x hx => ?_, fun x hx l hl => ?_⟩
  · rcases hmem hl with hl | rfl
    · exact hd.valid l hl
    · exact hlt
  · exact hd.nodup.append (List.nodup_singleton _) fun l hl hl' => hnot (List.mem_singleton.1 hl' ▸ hl)
  · rcases hmem hl with hl | rfl
    · obtain ⟨h1, h2⟩ := hd.target l hl x hx
      exact ⟨List.mem_append_left _ h1, h2⟩
    · rw [show (d.append [l]).board = d.board from rfl, htarget] at hx
      cases hx
  · rcases hmem hx with hx | rfl
    · obtain ⟨h1, h2⟩ := hd.reached x hx l hl
      exact ⟨List.mem_append_left _ h1, h2⟩
    · rw [show (d.append [x]).board = d.board from rfl, hreached] at hl
      cases hl

theorem Draft.Faithful.append_one {d : Draft} {signal : Int → Int} {lines : Int} (hf : d.Faithful signal lines)
    {g : Label} (hg : (d.board.get g).isSet = false) : (d.append [g]).Faithful signal lines := by
  have hsets : (d.append [g]).sets = d.sets := by
    rw [Draft.sets, show (d.append [g]).list = d.list ++ [g] from rfl, List.filter_append, List.filter_singleton,
      show (d.append [g]).board = d.board from rfl, hg]
    exact List.append_nil _
  exact ⟨fun l hl => hf.inside l (hsets ▸ hl), fun l hl => hf.trueTo l (hsets ▸ hl)⟩

/-- All instructions but the END are SETs. -/
def Build.Jumpless (f : Frame) (d : Draft) : Prop := ∀ l ∈ d.list, (d.board.get l).isSet = false → l = f.final

namespace Build

variable {f : Frame} {d d' : Draft}

theorem Jumpless.of_grows {names : List String} {opens : List Label} (h : Jumpless f d) (hd : d.Linked)
    (hgrows : Draft.Grows names opens [] d d') : Jumpless f d' := by
  intro l hl hset
  rcases hgrows.mem_cases hl with hl | ⟨-, hl | hset'⟩
  · obtain ⟨rs, hrs⟩ := hgrows.alike l (hd.valid l hl)
    rw [hrs] at hset
    exact h l hl hset
  · cases hl
  · rw [hset] at hset'
    cases hset'

theorem Jumpless.of_descends {heir : Label → Label} (h : Jumpless f d) (hdesc : d.Descends d' heir) : Jumpless f d' :=
  fun l hl hset => (hdesc.back l hl hset).elim (h l)

theorem Jumpless.target? (h : Jumpless f d) (hr : Ready f d) {l : Label} (hl : l ∈ d.list) :
    (d.board.get l).target? = none := by
  cases hset : (d.board.get l).isSet with
  | true => exact Instruction.target?_of_isSet hset
  | false => rw [h l hl hset, Instruction.target?, hr.stop]

/-- A merge leaves the END where it is. -/
theorem Ready.of_merged {us : List Label} {heir : Label → Label} (h : Ready f d) (hm : d.Merged d' us heir)
    (ho : d.Outlines (Pulse.stateAt f.pulses) f.register.complement) : Ready f d' := by
  have hset : (d.board.get f.final).isSet = false := by rw [Instruction.isSet, h.stop]
  obtain ⟨hself, hget⟩ := (hm.descends h.linked ho.inside).other _ h.final hset
  refine ⟨hm.linked h.linked ho.inside, (hm.outlines h.linked ho).toFaithful, ?_, ?_⟩
  · have := (hm.descends h.linked ho.inside).mem _ h.final
    rwa [hself] at this
  · rw [hget, Instruction.retarget_of_target?_eq_none (by rw [Instruction.target?, h.stop])]
    exact h.ending

end Build

/-! ## The start -/

namespace Sequence

theorem begin_eq_ok {f : Frame} {b b' : Build} (h : (begin f b).outcome = .ok b') :
    ∃ b₁, ((f.sequence.hasJumps = true ∧ ∃ l, b.writeId f 0 (some Block.startName) = .ok (l, b₁)) ∨
        (f.sequence.hasJumps = false ∧ b₁ = b)) ∧
      b' = { b₁ with draft := b₁.draft.append [f.final] } := by
  unfold begin at h
  simp only at h
  split at h
  · rename_i hjumps
    obtain ⟨⟨l, b₁⟩, hw, h⟩ := Attempt.bind_eq_ok.1 h
    obtain ⟨_, heq, h⟩ := Attempt.bind_eq_ok.1 h
    cases heq
    cases h
    exact ⟨b₁, .inl ⟨hjumps, l, Attempt.ofExcept_eq_ok.1 hw⟩, rfl⟩
  · rename_i hjumps
    obtain ⟨_, -, h⟩ := Attempt.bind_eq_ok.1 h
    obtain ⟨_, heq, h⟩ := Attempt.bind_eq_ok.1 h
    cases heq
    cases h
    exact ⟨b, .inr ⟨by simpa using hjumps, rfl⟩, rfl⟩

/-- The start: the END, and SETs that write the control register. -/
theorem ready_of_begin {t : Timeline} {o : Options} {length : Int} {pulses : List Pulse} {b : Build}
    (h : (begin (.ofPulses t o length []) (.blank length)).outcome = .ok b) :
    Build.Ready (.ofPulses t o length pulses) b.draft ∧ Build.Jumpless (.ofPulses t o length pulses) b.draft := by
  obtain ⟨b₁, hb₁, rfl⟩ := begin_eq_ok h
  have hblank : (Build.blank length).draft.Linked := ⟨by simp [Build.blank], by simp [Build.blank],
    by simp [Build.blank], by simp [Build.blank]⟩
  have hcont : Build.Continues (.ofPulses t o length pulses) [Block.startName] [] [] (Build.blank length).draft
      b₁.draft := by
    have hf : (Build.blank length).draft.Faithful (Pulse.stateAt pulses)
        (Frame.ofPulses t o length pulses).register.complement := ⟨by simp [Draft.SetsInside, Draft.sets, Build.blank],
      by simp [Draft.sets, Build.blank]⟩
    rcases hb₁ with ⟨-, l, hw⟩ | ⟨-, rfl⟩
    · exact (Build.continues_writeId hblank hf (by simp) hw).1
    · exact .refl hblank hf
  have hone : (Build.blank length).draft.board.size = 1 := rfl
  have hend : b₁.draft.board.get 0 = ⟨length - 1, some Block.endName, none, [], .stop⟩ := by
    rw [hcont.grows.get_eq 0 (by omega) (by simp)]
    rfl
  obtain ⟨new, hlist, hnew⟩ := hcont.grows.list
  have hnot : 0 ∉ b₁.draft.list := by
    rw [hlist]
    intro hmem
    have := (hnew 0 hmem).1
    omega
  have hset : (b₁.draft.board.get 0).isSet = false := by rw [hend]; rfl
  refine ⟨⟨?_, hcont.faithful.append_one hset, ?_, ?_⟩, ?_⟩
  · have hlt : 0 < b₁.draft.board.size := lt_of_lt_of_le Nat.one_pos hcont.grows.size_le
    exact hcont.linked.append_one hlt hnot (congrArg Instruction.target? hend) (congrArg Instruction.reachedBy hend)
  · exact List.mem_append_right _ (List.mem_singleton.2 rfl)
  · exact ⟨[], hend⟩
  · intro l hl hnone
    rcases List.mem_append.1 hl with hl | hl
    · rw [hlist] at hl
      obtain ⟨-, -, -, hjump | hset'⟩ := hnew l hl
      · cases hjump
      · exact absurd (hnone.symm.trans hset') Bool.false_ne_true
    · exact List.mem_singleton.1 hl

end Sequence

variable {s : Sequence} {variant : Binary64} {o : Options}

namespace Opening

variable (k : Opening s variant o)

/-- The state of the output lines at a tick. -/
def signal : Int → Int := Pulse.stateAt k.frame.pulses

/-- The output lines that are not of the control register. -/
def lines : Int := k.frame.register.complement

theorem sound : Pulse.Sound s.hardware k.frame.pulses := by
  have hv := Sequence.verified_of_verify k.verified
  have hpulses := k.pulses_eq
  have := Pulse.sound_of_channels (t := k.timeline) (by rw [k.sequence_eq]; exact hv.hardware)
    (by rw [k.sequence_eq]; exact hv.channels) hpulses
  rwa [k.sequence_eq] at this

/-- The start of the sequence: its control write, if there are jumps, and the END. -/
theorem begun_cases : ∃ b₁, ((s.hasJumps = true ∧ ∃ l,
      Build.writeId k.frame 0 (some Block.startName) (.blank k.length) = .ok (l, b₁)) ∨
      (s.hasJumps = false ∧ b₁ = .blank k.length)) ∧
    k.begun = { b₁ with draft := b₁.draft.append [k.frame.final] } := by
  obtain ⟨b₁, hcases, hbegun⟩ := Sequence.begin_eq_ok k.begun_eq
  rw [Frame.sequence, show (Frame.ofPulses k.timeline o k.length []).timeline = k.timeline from rfl, k.sequence_eq]
    at hcases
  exact ⟨b₁, hcases, hbegun⟩

theorem ready_begun : Build.Ready k.frame k.begun.draft := (Sequence.ready_of_begin k.begun_eq).1

/-! ## Pulses -/

/-- The draft with the SETs of all pulses. -/
def drawn : Draft := k.begun.draft.draw k.frame.pulses

theorem continues_drawn : Build.Continues k.frame [] [] [] k.begun.draft k.drawn :=
  (Pulse.continues_draw k.sound (fun _ h => h) k.ready_begun.linked k.ready_begun.faithful).1

theorem outlines_drawn : k.drawn.Outlines k.signal k.lines :=
  Pulse.outlines_draw k.sound k.ready_begun.linked k.ready_begun.faithful

theorem ready_drawn : Build.Ready k.frame k.drawn := k.ready_begun.of_continues k.continues_drawn

end Opening

/-- Names of jumps are not those of the blocks of the compiler. -/
theorem Sequence.ne_of_unreserved {name : String} (h : Sequence.isReserved name = false) :
    name ≠ Block.startName ∧ name ≠ Block.endName := by
  constructor <;> rintro rfl <;> exact absurd h (by decide)

namespace Sketch

variable (k : Sketch s variant o)

theorem merged_outlined : ∃ us, k.drawn.Merged k.outlined us (k.drawn.heir k.frame.register.mask) :=
  k.ready_drawn.linked.merged k.outlines_drawn.inside k.outlined_eq

theorem outlines_outlined : k.outlined.Outlines k.signal k.lines := by
  obtain ⟨us, hm⟩ := k.merged_outlined
  exact hm.outlines k.ready_drawn.linked k.outlines_drawn

theorem ready_outlined : Build.Ready k.frame k.outlined := by
  obtain ⟨us, hm⟩ := k.merged_outlined
  exact k.ready_drawn.of_merged hm k.outlines_drawn

theorem jumpless_outlined : Build.Jumpless k.frame k.outlined := by
  have hbegun : Build.Jumpless k.frame k.begun.draft := (Sequence.ready_of_begin k.begun_eq).2
  obtain ⟨us, hm⟩ := k.merged_outlined
  exact (hbegun.of_grows k.ready_begun.linked k.continues_drawn.grows).of_descends
    (hm.descends k.ready_drawn.linked k.outlines_drawn.inside)

/-! ## Jumps -/

theorem names_slots : (k.slots.map fun s => s.jump.name).Nodup := by
  have hnames := Build.names_of_slotsOf k.slots_eq
  refine hnames.nodup_iff.2 ?_
  change (k.timeline.sequence.jumps.map fun e => e.1.name).Nodup
  rw [k.sequence_eq]
  exact (Sequence.verified_of_verify k.verified).jumpNames

theorem mem_jumps_iff {e : Jump × Channel} : e ∈ k.frame.sequence.jumps ↔ e ∈ s.jumps := by
  rw [show k.frame.sequence = s from k.sequence_eq]

theorem exists_slot {e : Jump × Channel} (he : e ∈ s.jumps) : ∃ sl ∈ k.slots, Build.Serves k.frame e sl :=
  Build.exists_slot k.slots_eq (k.mem_jumps_iff.2 he)

theorem exists_jump {sl : Slot} (hsl : sl ∈ k.slots) : ∃ e ∈ s.jumps, Build.Serves k.frame e sl := by
  obtain ⟨e, he, hserves⟩ := Build.exists_jump k.slots_eq hsl
  exact ⟨e, k.mem_jumps_iff.1 he, hserves⟩

theorem unreserved {sl : Slot} (hsl : sl ∈ k.slots) :
    sl.jump.name ≠ Block.startName ∧ sl.jump.name ≠ Block.endName := by
  obtain ⟨e, he, hserves⟩ := k.exists_jump hsl
  rw [hserves.jump]
  exact Sequence.ne_of_unreserved ((Sequence.verified_of_verify k.verified).unreserved e he)

/-- The jumps of the sequence, each with the ladder it stands for and its JUMPs, which are all there are. -/
theorem branches : ∃ own : Slot → List Label,
    (∃ names jumps, (∀ l ∈ jumps, ∃ sl ∈ k.slots, l ∈ own sl) ∧
      Build.Continues k.frame names [k.frame.final] jumps k.outlined k.emitted.draft) ∧
    ∀ sl ∈ k.slots, ∃ ladder, sl.jump.mergedLadder = .ok ladder ∧
      Build.Branches k.frame k.slots sl ladder (own sl) k.emitted.draft := by
  obtain ⟨own, hcont, hall⟩ := Build.branches_of_foldlM (f := k.frame)
    (b := { k.begun with draft := k.outlined }) k.ready_outlined
    (((Sort.perm_sortBy _ _).map _).nodup_iff.2 k.names_slots)
    (fun sl _ l hl htarget => absurd (k.jumpless_outlined.target? k.ready_outlined hl) htarget) k.emitted_eq
  refine ⟨own, ⟨_, _, fun l hl => ?_, hcont⟩, fun sl hsl => hall sl (Sort.mem_sortBy.2 hsl)⟩
  obtain ⟨sl, hsl, hl⟩ := List.mem_flatMap.1 hl
  exact ⟨sl, Sort.mem_sortBy.1 hsl, hl⟩

theorem ready_emitted : Build.Ready k.frame k.emitted.draft := by
  obtain ⟨own, ⟨names, jumps, -, hcont⟩, -⟩ := k.branches
  exact k.ready_outlined.of_continues hcont

/-- What stands in a block is a SET, the END or a JUMP of the slot that the block is named after. -/
theorem block_cases {l : Label} {n : String} (hl : l ∈ k.emitted.draft.list)
    (hn : (k.emitted.draft.board.get l).block = some n) : (k.emitted.draft.board.get l).isSet = true ∨
      (n = Block.endName ∧ k.emitted.draft.board.time l = k.length - 1) ∨
      ∃ sl ∈ k.slots, n = sl.jump.name ∧ ∃ ladder xs, sl.jump.mergedLadder = .ok ladder ∧ l ∈ xs ∧
        Build.Branches k.frame k.slots sl ladder xs k.emitted.draft := by
  obtain ⟨own, ⟨names, jumps, hjumps, hcont⟩, hbranches⟩ := k.branches
  cases hset : (k.emitted.draft.board.get l).isSet with
  | true => exact .inl rfl
  | false =>
    rcases hcont.grows.mem_cases hl with hold | ⟨-, hnew | hnew⟩
    · have hlt := k.ready_outlined.linked.valid l hold
      obtain ⟨rs, hcell⟩ := hcont.grows.alike l hlt
      have hfinal : l = k.frame.final := k.jumpless_outlined l hold (by rw [hcell] at hset; exact hset)
      obtain ⟨rs', hend⟩ := k.ready_emitted.ending
      rw [hfinal, hend] at hn
      refine .inr (.inl ⟨(Option.some.inj hn).symm, ?_⟩)
      rw [hfinal, Board.time, hend]
      rfl
    · obtain ⟨sl, hsl, hown⟩ := hjumps l hnew
      obtain ⟨ladder, hladder, hb⟩ := hbranches sl hsl
      exact .inr (.inr ⟨sl, hsl, (hb.of_block hown hn).1, ladder, own sl, hladder, hown, hb⟩)
    · rw [hset] at hnew
      cases hnew

theorem outlines_emitted : k.emitted.draft.Outlines k.signal k.lines := by
  obtain ⟨own, ⟨names, jumps, -, hcont⟩, -⟩ := k.branches
  exact hcont.outlines k.outlines_outlined

end Sketch

/-! ## The full state -/

/-- The SET of tick 0 carries the whole state. -/
theorem Frame.full_starting (f : Frame) : f.starting.drive.Full f.register.complement (Pulse.stateAt f.pulses 0) :=
  fun _ hi => ⟨hi, rfl⟩

/-- The first SET has all lines, since it is merged from one that does. -/
theorem Draft.Merged.exists_start {f : Frame} {d d' : Draft} {us : List Label} {heir : Label → Label}
    (hm : (d.push f.starting).Merged d' us heir) (hd : (d.push f.starting).Linked)
    (ho : (d.push f.starting).Outlines (Pulse.stateAt f.pulses) f.register.complement) :
    ∃ l, d'.Leads l ∧ d'.board.time l = 0 ∧
      (d'.board.get l).drive.Full f.register.complement (Pulse.stateAt f.pulses 0) := by
  have hget : (d.push f.starting).board.get d.board.size = f.starting := Draft.get_push_size _ _
  have hmem : d.board.size ∈ (d.push f.starting).sets :=
    Draft.mem_sets.2 ⟨List.mem_append_right _ (List.mem_singleton.2 rfl), by rw [hget]; rfl⟩
  have hlead := hm.leads_heir hd ho.inside ⟨hmem, .inl (by rw [hget]; rfl)⟩
  have htime : d'.board.time (heir d.board.size) = 0 := by
    rw [hm.time_heir hd ho.inside (Draft.mem_sets.1 hmem).1, Board.time, hget]
    rfl
  refine ⟨_, hlead, htime, fun i hi => ?_⟩
  have hmask := hm.mask_heir hd ho.inside hmem (i := i) (by rw [hget]; exact (f.full_starting i hi).1)
  refine ⟨hmask, ?_⟩
  rw [(hm.outlines hd ho).trueTo _ hlead.1 i hi hmask, htime]

namespace Score

variable (k : Score s variant o)

theorem merged_joined : ∃ us, k.emitted.draft.Merged k.joined us (k.emitted.draft.heir k.frame.register.mask) :=
  k.ready_emitted.linked.merged k.outlines_emitted.inside k.joined_eq

theorem linked_joined : k.joined.Linked := by
  obtain ⟨us, hm⟩ := k.merged_joined
  exact hm.linked k.ready_emitted.linked k.outlines_emitted.inside

/-- A merged draft is in order, so sorting it changes nothing. -/
theorem sorted_joined : Draft.sorted k.joined.board k.joined.list = k.joined.list := by
  obtain ⟨us, hm⟩ := k.merged_joined
  rw [hm.list, Draft.sorted_sorted]

theorem outlines_sorted : k.joined.sort.Outlines k.signal k.lines := by
  obtain ⟨us, hm⟩ := k.merged_joined
  have hsort : k.joined.sort = { k.joined with past := k.joined.list :: k.joined.past } := by
    rw [Draft.sort, Draft.supersede, k.sorted_joined]
  rw [hsort]
  have ho := hm.outlines k.ready_emitted.linked k.outlines_emitted
  exact ⟨⟨ho.inside, ho.trueTo⟩, ho.edges⟩

theorem continues_started : Draft.Continues k.signal k.lines [] [] [] k.joined.sort k.started :=
  Draft.continues_push k.linked_joined.sort k.outlines_sorted.toFaithful rfl (fun _ h => by cases h) rfl
    (Bits.without_eq_zero.1 k.starting_inside) k.frame.full_starting.trueTo

theorem outlines_started : k.started.Outlines k.signal k.lines := k.continues_started.outlines k.outlines_sorted

theorem merged_merged : ∃ us, k.started.Merged k.merged us (k.started.heir k.frame.register.mask) :=
  k.continues_started.linked.merged k.outlines_started.inside k.merged_eq

theorem linked_merged : k.merged.Linked := by
  obtain ⟨us, hm⟩ := k.merged_merged
  exact hm.linked k.continues_started.linked k.outlines_started.inside

theorem exists_start : ∃ l, k.merged.Leads l ∧ k.merged.board.time l = 0 ∧
    (k.merged.board.get l).drive.Full k.lines (k.signal 0) := by
  obtain ⟨us, hm⟩ := k.merged_merged
  exact hm.exists_start k.continues_started.linked k.outlines_started

theorem carried_spec : k.carried.list = k.merged.list ∧ k.merged.board.Redriven k.carried.board ∧
    k.carried.SetsInside ∧ k.carried.Carries k.signal k.lines k.carried.board.time := by
  obtain ⟨us, hm⟩ := k.merged_merged
  have hd := k.continues_started.linked
  have ho := k.outlines_started
  exact Draft.full_of_inheritOutputs (hm.outlines hd ho) k.linked_merged (fun l hl => hm.first_of_leads hd ho.inside hl)
    (by rw [hm.list, Draft.sorted_sorted]) k.exists_start k.carried_eq

theorem linked_carried : k.carried.Linked := by
  obtain ⟨hlist, hred, -, -⟩ := k.carried_spec
  exact k.linked_merged.of_sameLinks hred.sameLinks (List.Perm.of_eq hlist)

theorem merged_ledger : ∃ us, k.carried.Merged k.ledger us (k.carried.heir k.frame.register.mask) :=
  k.linked_carried.merged k.carried_spec.2.2.1 k.ledger_eq

theorem linked_ledger : k.ledger.Linked := by
  obtain ⟨us, hm⟩ := k.merged_ledger
  exact hm.linked k.linked_carried k.carried_spec.2.2.1

theorem setsInside_ledger : k.ledger.SetsInside := by
  obtain ⟨us, hm⟩ := k.merged_ledger
  exact hm.setsInside k.linked_carried k.carried_spec.2.2.1

/-- Every SET that is placed carries the state of its tick. -/
theorem carries_ledger : k.ledger.Carries k.signal k.lines k.ledger.board.time := by
  obtain ⟨us, hm⟩ := k.merged_ledger
  exact hm.carries k.linked_carried k.carried_spec.2.2.1 k.carried_spec.2.2.2

/-- The SET of tick 0 is still there. -/
theorem exists_start_ledger : ∃ l ∈ k.ledger.sets, k.ledger.board.time l = 0 := by
  obtain ⟨l, ⟨hl, -⟩, htime, -⟩ := k.exists_start
  obtain ⟨hlist, hred, hinside, -⟩ := k.carried_spec
  obtain ⟨us, hmerged⟩ := k.merged_ledger
  have hdesc := hmerged.descends k.linked_carried hinside
  obtain ⟨hmem, hset⟩ := Draft.mem_sets.1 hl
  have hmem' : l ∈ k.carried.list := hlist ▸ hmem
  refine ⟨_, Draft.mem_sets.2 ⟨hdesc.mem l hmem', ?_⟩, ?_⟩
  · rw [hdesc.isSet l hmem', hred.sameLinks.isSet, hset]
  · rw [hdesc.time l hmem', hred.time_eq, htime]

/-! ## Heirs -/

/-- What an instruction of the draft with the jumps has become in the list that is placed. -/
def heir : Label → Label :=
  k.carried.heir k.frame.register.mask ∘ k.started.heir k.frame.register.mask ∘
    k.emitted.draft.heir k.frame.register.mask

theorem descends : k.emitted.draft.Descends k.ledger k.heir := by
  obtain ⟨us₁, hm₁⟩ := k.merged_joined
  obtain ⟨us₂, hm₂⟩ := k.merged_merged
  obtain ⟨us₃, hm₃⟩ := k.merged_ledger
  obtain ⟨hlist, hred, hin, -⟩ := k.carried_spec
  have h1 := hm₁.descends k.ready_emitted.linked k.outlines_emitted.inside
  have h2 : k.joined.Descends k.joined.sort id := Draft.descends_of_redriven (.refl _) (Draft.perm_sorted _ _)
  have h3 : k.joined.sort.Descends k.started id := Draft.descends_push k.linked_joined.sort rfl rfl
  have h4 := hm₂.descends k.continues_started.linked k.outlines_started.inside
  have h5 : k.merged.Descends k.carried id := Draft.descends_of_redriven hred (List.Perm.of_eq hlist)
  have h6 := hm₃.descends k.linked_carried hin
  exact ((((h1.trans h2).trans h3).trans h4).trans h5).trans h6

end Score

/-! ## Ticks -/

namespace Layout

variable [Collation] (k : Layout s variant o)

theorem placement : k.ledger.board.Placed k.length k.ledger.list k.placed.list k.placed.board :=
  Draft.placed_of_place k.linked_ledger.valid k.linked_ledger.nodup k.placed_eq

theorem linked_placed : k.placed.Linked := k.linked_ledger.of_sameLinks k.placement.retimed.sameLinks k.placement.perm

/-- Placement moves the SETs, which still carry the state of the tick that they had before. -/
theorem carries_placed : k.placed.Carries k.signal k.lines k.ledger.board.time := by
  intro l hl
  rw [Draft.mem_sets, k.placement.perm.mem_iff, k.placement.retimed.isSet_eq, ← Draft.mem_sets] at hl
  rw [k.placement.retimed.drive_eq]
  exact k.carries_ledger l hl

theorem settled_spec : k.settled.list = k.placed.list ∧ k.placed.board.Redriven k.settled.board ∧
    k.settled.Carries k.signal k.lines k.ledger.board.time := by
  obtain ⟨hlist, hred, hc⟩ := k.carries_placed.inheritOutputs k.linked_placed k.settled_eq
  rw [Draft.sorted_of_increasing k.placement.increasing] at hlist
  exact ⟨hlist, hred, hc⟩

theorem perm_settled : k.settled.list.Perm k.ledger.list := by
  rw [k.settled_spec.1]
  exact k.placement.perm

theorem linked_settled : k.settled.Linked :=
  k.linked_placed.of_sameLinks k.settled_spec.2.1.sameLinks (List.Perm.of_eq k.settled_spec.1)

theorem increasing_settled : k.settled.list.Pairwise fun x y => k.settled.board.time x < k.settled.board.time y := by
  rw [k.settled_spec.1]
  exact k.placement.increasing.imp fun h => by rwa [k.settled_spec.2.1.time_eq, k.settled_spec.2.1.time_eq]

end Layout

end PulseSequencer
