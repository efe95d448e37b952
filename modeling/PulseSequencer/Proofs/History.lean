import PulseSequencer.Proofs.Finish
import PulseSequencer.Proofs.Ids

/-!
# The history of branches

Which branches a run has taken can be read off the control register, if no control writes collide.

* `Sketch.origins` : what the control writes of a sequence are made for, in the order of their ids;
* `Sketch.exists_logged`, `Score.records_ledger`, `Layout.records_settled` : the writes through the stages;
* `Draft.Covers.repeats` : what fills a gap repeats the SET before it;
* `Layout.Chronicle`, `Sequence.exists_chronicle` : the ids in the words of a program.
-/

namespace PulseSequencer

/-! ## Stages -/

theorem Build.logged_blank (f : Frame) (base : String → Int) (length : Int) : Logged f base (blank length) [] where
  records := ⟨by simp, by simp, by simp [blank, Draft.sets]⟩
  paired := by simp [Paired, blank, Draft.sets]
  linked := ⟨by simp [blank], by simp [blank], by simp [blank], by simp [blank]⟩
  next := rfl
  room := Nat.zero_le _

variable {s : Sequence} {variant : Binary64} {o : Options}

/-- What the start is marked for. -/
def Sequence.origins (s : Sequence) : List Origin := if s.hasJumps then [.start] else []

/-- What the control writes of a sequence are made for, in the order of their ids. -/
def Sketch.origins (k : Sketch s variant o) : List Origin :=
  s.origins ++ (Sort.sortBy (fun a b : Slot => decide (a.tick ≤ b.tick)) k.slots).flatMap Slot.origins

namespace Opening

variable (k : Opening s variant o)

theorem exists_logged_begun (slots : List Slot) {base : String → Int} (hbase : base Block.startName = 0) :
    ∃ ws, Build.Logged k.frame base k.begun ws ∧
    List.Forall₂ (Build.Wrote k.frame slots k.begun.draft) s.origins ws := by
  have hready := k.ready_begun
  have hblank := Build.logged_blank k.frame base k.length
  have hstop : (k.begun.draft.board.get k.frame.final).isSet = false := by rw [Instruction.isSet, hready.stop]
  obtain ⟨b, hb, hbegun⟩ := k.begun_cases
  -- the END adds nothing to a record
  have hend : ∀ {ws}, Build.Logged k.frame base b ws → Build.Logged k.frame base k.begun ws := fun {ws} h => by
    have hboard : k.begun.draft.board = b.draft.board := by rw [hbegun]; rfl
    have hsets : ∀ l, l ∈ k.begun.draft.sets ↔ l ∈ b.draft.sets := fun l => by
      rw [hboard] at hstop
      have hlist : k.begun.draft.list = b.draft.list ++ [k.frame.final] := by rw [hbegun]; rfl
      rw [Draft.mem_sets, Draft.mem_sets, hboard, hlist, List.mem_append, List.mem_singleton]
      constructor
      · rintro ⟨hl | rfl, hset⟩
        · exact ⟨hl, hset⟩
        · rw [hstop] at hset
          cases hset
      · exact fun h => ⟨.inl h.1, h.2⟩
    refine ⟨h.records.of_same hsets fun l _ i _ => ?_, fun l hl => ?_, hready.linked, by rw [hbegun]; exact h.next,
      h.room⟩
    · rw [hboard]
      exact ⟨rfl, rfl⟩
    · simp only [hboard, hsets]
      exact h.paired l ((hsets l).1 hl)
  rw [Sequence.origins]
  rcases hb with ⟨hj, l, hwrite⟩ | ⟨hj, rfl⟩
  · obtain ⟨hlog, hcell⟩ := hblank.writeId (fun n hn => Option.some.inj hn ▸ hbase) hwrite
    have hcell' : k.begun.draft.board.get l = k.frame.writing 1 0 (some Block.startName) := by rw [hbegun]; exact hcell
    rw [hj]
    exact ⟨[l], hend hlog, .cons ⟨by rw [hcell']; rfl, by rw [Board.time, hcell']; rfl⟩ .nil⟩
  · rw [hj]
    exact ⟨[], hend hblank, .nil⟩

/-- Pulses are outside the register. -/
theorem records_draw {ws : List Label} {ps : List Pulse} (hps : ∀ p ∈ ps, p ∈ k.frame.pulses) :
    ∀ {d : Draft}, d.Records k.frame.register ws → d.Linked → (d.draw ps).Records k.frame.register ws := by
  induction ps with
  | nil => exact fun h _ => h
  | cons p ps ih =>
    intro d h hd
    have hline := (k.sound.onLine p (hps p List.mem_cons_self)).outside
    have hrise : ∀ j, Bits.bit k.frame.register.mask j = true → Bits.bit p.rise.drive.value j = false := fun j hj => by
      rw [k.register_eq] at hj
      rw [show p.rise.drive.value = Bits.single p.line from rfl, Bits.bit_single, decide_eq_false_iff_not]
      rintro rfl
      rw [hline] at hj
      cases hj
    have hlinked : (d.push p.rise).Linked := hd.push rfl rfl
    exact ih (fun q hq => hps q (List.mem_cons_of_mem _ hq))
      ((h.push hd hrise).push hlinked fun j _ => Bits.bit_zero j) (hlinked.push rfl rfl)

end Opening

/-- The tick of the control write in a block: that behind a jump, or the start. -/
def Sketch.base (k : Sketch s variant o) (name : String) : Int :=
  match k.slots.find? fun sl => sl.jump.name == name with
  | some sl => sl.tick + 1
  | none => 0

theorem Sketch.base_of_mem (k : Sketch s variant o) {sl : Slot} (hsl : sl ∈ k.slots) :
    k.base sl.jump.name = sl.tick + 1 := by
  have hfind : k.slots.find? (fun x => x.jump.name == sl.jump.name) = some sl := by
    cases hfind : k.slots.find? fun x => x.jump.name == sl.jump.name with
    | none => exact absurd (List.find?_eq_none.1 hfind sl hsl) (by simp)
    | some x =>
      have hname : x.jump.name = sl.jump.name := by simpa using List.find?_some hfind
      rw [List.inj_on_of_nodup_map k.names_slots (List.mem_of_find?_eq_some hfind) hsl hname]
  rw [base, hfind]

theorem Sketch.base_start (k : Sketch s variant o) : k.base Block.startName = 0 := by
  have hfind : k.slots.find? (fun x => x.jump.name == Block.startName) = none := by
    refine List.find?_eq_none.2 fun sl hsl heq => ?_
    exact (k.unreserved hsl).1 (by simpa using heq)
  rw [base, hfind]

/-- The control writes of a sequence have the ids from 1 on, in the order of what they are made for. -/
theorem Sketch.exists_logged (k : Sketch s variant o) (hquiet : (k.drawn.mergeSets k.frame.register.mask).Quiet) :
    ∃ ws, Build.Logged k.frame k.base k.emitted ws ∧
      List.Forall₂ (Build.Wrote k.frame k.slots k.emitted.draft) k.origins ws := by
  obtain ⟨ws, hlog, hwrote⟩ := k.exists_logged_begun k.slots k.base_start
  obtain ⟨us, hm⟩ := k.merged_outlined
  have hlinked := k.ready_drawn.linked
  have hinside := k.outlines_drawn.inside
  set heir := k.drawn.heir k.frame.register.mask
  have hrecords : k.outlined.Records k.frame.register (ws.map heir) :=
    (k.records_draw (fun _ h => h) hlog.records hlog.linked).of_merged hlinked hinside hm
      (Draft.agree_of_mergeSets hlinked hinside hquiet k.outlined_eq)
  have hpaired : Build.Paired k.frame k.base k.outlined :=
    (hlog.paired.draw hlog.linked).of_descends (hm.descends hlinked hinside)
  have hlog₁ : Build.Logged k.frame k.base { k.begun with draft := k.outlined } (ws.map heir) :=
    ⟨hrecords, hpaired, k.ready_outlined.linked, by rw [List.length_map]; exact hlog.next,
      by rw [List.length_map]; exact hlog.room⟩
  -- the write of the start keeps its tick and its block
  have hstart : List.Forall₂ (Build.Wrote k.frame k.slots k.outlined) s.origins (ws.map heir) := by
    have hdrawn := forall₂_imp_of_mem hwrote fun og w hw h =>
      h.of_grows hlog.linked (Draft.mem_sets.1 (hlog.records.mem w hw)).1 k.continues_drawn.grows
    have hmem : ∀ w ∈ ws, w ∈ k.drawn.list := fun w hw =>
      k.continues_drawn.grows.mem_list (Draft.mem_sets.1 (hlog.records.mem w hw)).1
    have hdesc := hm.descends hlinked hinside
    refine List.forall₂_map_right_iff.2 (forall₂_imp_of_mem ?_ fun og w _ h => h)
    rw [Sequence.origins] at hdrawn ⊢
    split at hdrawn
    · obtain _ | ⟨⟨hblock, htime⟩, hnil⟩ := hdrawn
      cases hnil
      have hw := hmem _ List.mem_cons_self
      rw [if_pos (by assumption)]
      exact .cons ⟨hdesc.block _ hw _ hblock, (hdesc.time _ hw).trans htime⟩ .nil
    · cases hdrawn
      rw [if_neg (by assumption)]
      exact .nil
  have hnodup := ((Sort.perm_sortBy (fun a b : Slot => decide (a.tick ≤ b.tick)) k.slots).map
    fun sl => sl.jump.name).nodup_iff.2 k.names_slots
  have hfresh : ∀ sl ∈ Sort.sortBy (fun a b : Slot => decide (a.tick ≤ b.tick)) k.slots, ∀ l ∈ k.outlined.list,
      (k.outlined.board.get l).target? ≠ none → (k.outlined.board.get l).block ≠ some sl.jump.name :=
    fun _ _ l hl htarget => absurd (k.jumpless_outlined.target? k.ready_outlined hl) htarget
  obtain ⟨new, hlogged, hnew⟩ := Build.exists_logged_foldlM (b := { k.begun with draft := k.outlined }) k.ready_outlined
    hnodup hfresh (fun _ hsl => k.base_of_mem (Sort.mem_sortBy.1 hsl)) hlog₁ k.emitted_eq
  obtain ⟨own, ⟨names, jumps, -, hcont⟩, -⟩ := k.branches
  refine ⟨ws.map heir ++ new, hlogged, List.rel_append (forall₂_imp_of_mem hstart fun og w hw h => ?_) hnew⟩
  exact h.of_grows k.ready_outlined.linked (Draft.mem_sets.1 (hrecords.mem w hw)).1 hcont.grows

/-- The merges before placement are quiet. -/
structure Score.Quiet (k : Score s variant o) : Prop where
  drawn : (k.drawn.mergeSets k.frame.register.mask).Quiet
  emitted : (k.emitted.draft.mergeSets k.frame.register.mask).Quiet
  started : (k.started.mergeSets k.frame.register.mask).Quiet
  carried : (k.carried.mergeSets k.frame.register.mask).Quiet

theorem Score.records_ledger (k : Score s variant o) (hquiet : k.Quiet) {ws : List Label}
    (h : k.emitted.draft.Records k.frame.register ws) : k.ledger.Records k.frame.register (ws.map k.heir) := by
  obtain ⟨us₁, hm₁⟩ := k.merged_joined
  obtain ⟨us₂, hm₂⟩ := k.merged_merged
  obtain ⟨us₃, hm₃⟩ := k.merged_ledger
  have hemitted := k.ready_emitted.linked
  have hsorted := k.linked_joined.sort
  have hstarted := k.continues_started.linked
  have hjoined := h.of_merged hemitted k.outlines_emitted.inside hm₁
    (Draft.agree_of_mergeSets hemitted k.outlines_emitted.inside hquiet.emitted k.joined_eq)
  have hsort : k.joined.sort.Records k.frame.register (ws.map (k.emitted.draft.heir k.frame.register.mask)) := by
    refine hjoined.of_same (fun l => ?_) fun l _ i _ => ⟨rfl, rfl⟩
    rw [Draft.mem_sets, Draft.mem_sets, Draft.list_sort, Draft.mem_sorted, Draft.board_sort]
  have hpush := hsort.push hsorted (i := k.frame.starting) fun j hj => by
    rw [← Bool.not_eq_true]
    intro hbit
    have := Bits.without_eq_zero.1 k.starting_inside j hbit
    rw [Register.bit_complement, hj] at this
    simp at this
  have hmerged := Draft.Records.of_merged hpush hstarted k.outlines_started.inside hm₂
    (Draft.agree_of_mergeSets hstarted k.outlines_started.inside hquiet.started k.merged_eq)
  have hcarried := hmerged.of_inheritOutputs k.linked_merged k.carried_eq
  have hledger := hcarried.of_merged k.linked_carried k.carried_spec.2.2.1 hm₃
    (Draft.agree_of_mergeSets k.linked_carried k.carried_spec.2.2.1 hquiet.carried k.ledger_eq)
  rw [List.map_map, List.map_map] at hledger
  exact hledger

theorem Layout.records_settled [Collation] (k : Layout s variant o) (hquiet : k.Quiet) {ws : List Label}
    (h : k.emitted.draft.Records k.frame.register ws) : k.settled.Records k.frame.register (ws.map k.heir) := by
  have hplaced : k.placed.Records k.frame.register (ws.map k.heir) := by
    refine (k.records_ledger hquiet h).of_same (fun l => ?_) fun l _ i _ => ?_
    · rw [Draft.mem_sets, Draft.mem_sets, k.placement.perm.mem_iff, k.placement.retimed.isSet_eq]
    · rw [k.placement.retimed.drive_eq]
      exact ⟨rfl, rfl⟩
  exact hplaced.of_inheritOutputs k.linked_placed k.settled_eq

theorem Layout.quiet_of_compile [Collation] (k : Layout s variant o) (h : (s.compile variant o).Quiet) : k.Quiet := by
  have hassemble : (s.assemble variant o).Quiet := (h.of_bind k.verified).2
  rw [Sequence.assemble, if_neg (by rw [k.variant_ok]; exact Bool.false_ne_true)] at hassemble
  have hlength := (hassemble.of_bind (Attempt.outcome_ofExcept_ok k.timeline_eq)).2.of_bind k.length_eq
  have hrest := hlength.2
  rw [if_neg k.two_le] at hrest
  obtain ⟨hdraft, hcomplete⟩ := hrest.of_bind k.outcome_draft
  have hcomplete := (hcomplete.of_bind k.outcome_complete).1
  have hpulses := (hdraft.of_bind k.begun_eq).2.of_bind k.pulses_eq
  have hdrawn := (hpulses.2.of_bind (Attempt.ofExcept_eq_ok.2 (Pulse.foldlM_draw _ _))).2.of_bind k.outlined_eq
  have hemit : (Build.emitAll k.frame { k.begun with draft := k.outlined }).outcome = .ok k.emitted :=
    Attempt.bind_eq_ok.2 ⟨k.slots, k.slots_eq, k.emitted_eq⟩
  have hemitted := (hdrawn.2.of_bind hemit).2.of_bind k.joined_eq
  have hstarted := hcomplete.of_bind k.merged_eq
  have hcarried := (hstarted.2.of_bind (Attempt.ofExcept_eq_ok.2 k.carried_eq)).2.of_bind k.ledger_eq
  exact ⟨hdrawn.1, hemitted.1, hstarted.1, hcarried.1⟩

/-! ## Gaps -/

/-- What fills a gap repeats the SET before it. -/
theorem Draft.Covers.repeats {b : Board} {last : Int} {held : Option Label} {ls filled : List Label}
    (h : Covers b last held ls filled) : ∀ {i : Nat} {x : Label}, filled[i]? = some x → (b.get x).isSet = true →
      x ∈ ls ∨ ∃ y, ((filled.take i).filter fun l => (b.get l).isSet).getLast?.or held = some y ∧
        (b.get x).drive.value = (b.get y).drive.value := by
  induction h with
  | nil => simp
  | @next last held l ls filled htime _ ih =>
    intro i x hx hset
    cases i with
    | zero =>
      cases hx
      exact .inl List.mem_cons_self
    | succ i =>
      rw [List.take_succ_cons, getLast?_filter_cons]
      exact (ih hx hset).imp_left (List.mem_cons_of_mem _)
  | @hold last g x₀ l ls filled htime hlt hcell _ ih =>
    intro i x hx hset
    have hvalue : (b.get x₀).drive.value = (b.get g).drive.value := by rw [hcell]; rfl
    cases i with
    | zero =>
      cases hx
      exact .inr ⟨g, rfl, hvalue⟩
    | succ i =>
      rw [List.take_succ_cons, getLast?_filter_cons, if_pos (by rw [hcell]; rfl)]
      refine (ih hx hset).imp_right ?_
      rintro ⟨y, hy, hxy⟩
      cases hlast : ((filled.take i).filter fun l => (b.get l).isSet).getLast? with
      | none =>
        rw [hlast] at hy
        cases hy
        exact ⟨x₀, rfl, hxy.trans hvalue.symm⟩
      | some z =>
        rw [hlast] at hy
        exact ⟨y, hy, hxy⟩
  | @wait last n held x₀ l ls filled hn htime hlt hcell _ ih =>
    intro i x hx hset
    cases i with
    | zero =>
      cases hx
      rw [hcell] at hset
      cases hset
    | succ i =>
      rw [List.take_succ_cons, getLast?_filter_cons, if_neg (by rw [hcell]; exact Bool.false_ne_true)]
      exact ih hx hset

theorem exists_of_getLast?_filter {α : Type} {p : α → Bool} {xs : List α} {y : α} : ∀ {i : Nat},
    ((xs.take i).filter p).getLast? = some y → ∃ j < i, xs[j]? = some y ∧
      ∀ m, j < m → m < i → ∀ z, xs[m]? = some z → p z = false := by
  intro i
  induction i with
  | zero => simp
  | succ i ih =>
    intro h
    rw [List.take_add_one, List.filter_append, List.getLast?_append] at h
    cases hx : xs[i]? with
    | none =>
      rw [hx] at h
      obtain ⟨j, hj, hy, hbetween⟩ := ih (by simpa using h)
      refine ⟨j, by omega, hy, fun m hjm hm z hz => ?_⟩
      rcases Nat.lt_succ_iff_lt_or_eq.1 hm with hm | rfl
      · exact hbetween m hjm hm z hz
      · rw [hx] at hz
        cases hz
    | some x =>
      rw [hx, Option.toList_some] at h
      cases hp : p x with
      | true =>
        rw [List.filter_cons_of_pos hp] at h
        simp only [List.filter_nil, List.getLast?_singleton, Option.some_or, Option.some.injEq] at h
        exact ⟨i, by omega, by rw [hx, h], fun m h1 h2 => by omega⟩
      | false =>
        rw [List.filter_cons_of_neg (by rw [hp]; exact Bool.false_ne_true)] at h
        obtain ⟨j, hj, hy, hbetween⟩ := ih (by simpa using h)
        refine ⟨j, by omega, hy, fun m hjm hm z hz => ?_⟩
        rcases Nat.lt_succ_iff_lt_or_eq.1 hm with hm | rfl
        · exact hbetween m hjm hm z hz
        · rw [hx] at hz
          cases hz
          exact hp

/-! ## Words -/

/-- The lines of the register are active high. -/
theorem Hardware.Checked.bit_polarityMask {h : Hardware} (hc : h.Checked) {i : Nat}
    (hi : Bits.bit (Register.mask h.register) i = true) : Bits.bit h.polarityMask i = false := by
  have hlimit : outputLimit = 24 := rfl
  rw [Register.mask, bit_maskOf, List.any_map, List.any_eq_true] at hi
  obtain ⟨b, hb, hib⟩ := hi
  rw [polarityMask, bit_maskOf, List.any_eq_false]
  intro c hmem
  obtain ⟨l, hl, rfl⟩ := List.mem_map.1 hmem
  have hout := List.mem_of_mem_filter hl
  obtain ⟨-, hl0, hl1⟩ := hc.output l hout
  obtain ⟨-, hb0, hb1⟩ := hc.register b hb
  have hne := hc.output_register l hout b hb
  simp only [Function.comp_apply, decide_eq_true_eq] at hib ⊢
  rw [hib, Bits.position_of_lt hb0 (by omega), Bits.position_of_lt hl0 (by omega)]
  omega

namespace Layout

variable [Collation] {k : Layout s variant o} {words : List Word} {ws : List Label}

/-- The place of the word that a control write has ended up in. -/
def placeOfWrite (k : Layout s variant o) (w : Label) : Nat := k.final.list.idxOf (k.heir w)

theorem set_of_operationAt? (h : k.addressed.encode = .ok words) {i v : Nat} : operationAt? words i = some (.set v) ↔
    ∃ x, k.final.list[i]? = some x ∧ (k.final.board.get x).isSet = true ∧
      v = Bits.unsigned (Bits.xor (k.final.board.get x).drive.value s.hardware.polarityMask) := by
  rw [operationAt?_eq h, Option.map_eq_some_iff]
  refine exists_congr fun x => and_congr_right fun _ => ?_
  unfold Draft.linked Instruction.isSet Instruction.drive
  cases (k.final.board.get x).action <;> simp [eq_comm]

/-- The control bits of a word are those that its SET drives. -/
theorem bit_of_set (h : k.addressed.encode = .ok words) {x : Label} (hx : x ∈ k.final.list)
    (hset : (k.final.board.get x).isSet = true) {j : Nat} (hj : Bits.bit k.frame.register.mask j = true) :
    Bits.bit (Bits.unsigned (Bits.xor (k.final.board.get x).drive.value s.hardware.polarityMask)) j =
      Bits.bit (k.final.board.get x).drive.value j := by
  have hlimit := encodable_of_encode h hx
  rw [Draft.Encodable, Instruction.action_eq_of_isSet hset] at hlimit
  rw [k.register_eq] at hj
  have hc := (Sequence.verified_of_verify k.verified).hardware
  rw [Bits.unsigned_xor_eq (lt_trans hlimit (by decide)), Bits.bit_xor, hc.bit_polarityMask hj, Bool.xor_false]

/-- What the words of a program tell of the control writes `ws`, which have the ids from 1 on. -/
structure Chronicle (k : Layout s variant o) (words : List Word) (ws : List Label) : Prop where
  encoded : k.addressed.encode = .ok words
  /-- The writes are those of the start, of the pass markers and of the landings, each one once. -/
  wrote : List.Forall₂ (Build.Wrote k.frame k.slots k.emitted.draft) k.origins ws
  room : ws.length ≤ 2 ^ s.hardware.register.length - 1
  /-- The id of a write can be read off the word it has ended up in. -/
  reads : ∀ (n : Nat) (w : Label), ws[n]? = some w → ∃ v, operationAt? words (k.placeOfWrite w) = some (.set v) ∧
    Gray.decode (Register.valueOf s.hardware.register v) = n + 1
  /-- All other SETs clear the register, but those that fill a gap and repeat the SET before them. -/
  others : ∀ i v, operationAt? words i = some (.set v) → (∃ w ∈ ws, i = k.placeOfWrite w) ∨
    Bits.and v (Register.mask s.hardware.register) = 0 ∨
    (∀ l ∈ k.ledger.list, k.final.list[i]? ≠ some l) ∧ ∃ j < i, operationAt? words j = some (.set v) ∧
      ∀ m, j < m → m < i → ∀ u, operationAt? words m ≠ some (.set u)
  /-- The JUMP of a branch goes to the word of its landing. -/
  lands : ∀ (n : Nat) (sl : Slot) (r : Rung) (w : Label), k.origins[n]? = some (.landing sl r) → ws[n]? = some w →
    ∃ i, operationAt? words i = some (.jump (r.threshold.equal 0)
      (if r.threshold.equal 0 then 0 else sl.channel).toWhole.toNat
      (if r.threshold.equal 0 then 0 else r.threshold).toWhole.toNat (k.placeOfWrite w + 1))
  /-- No two branches land on words with the same control bits. -/
  apart : ∀ (m n : Nat) (x y : Label) (a b : Nat), ws[m]? = some x → ws[n]? = some y → m ≠ n →
    operationAt? words (k.placeOfWrite x) = some (.set a) → operationAt? words (k.placeOfWrite y) = some (.set b) →
    Bits.and a (Register.mask s.hardware.register) ≠ Bits.and b (Register.mask s.hardware.register)

section Logged

variable (hquiet : k.Quiet) (h : k.addressed.encode = .ok words) (hlog : Build.Logged k.frame k.base k.emitted ws)

include hquiet hlog

theorem mem_final_of_write {w : Label} (hw : w ∈ ws) :
    k.heir w ∈ k.settled.list ∧ (k.final.board.get (k.heir w)).isSet = true := by
  obtain ⟨hmem, hset⟩ := Draft.mem_sets.1 ((k.records_settled hquiet hlog.records).mem _ (List.mem_map_of_mem hw))
  exact ⟨hmem, by rw [k.get_final hmem]; exact hset⟩

include h

theorem reads_of_logged {n : Nat} {w : Label} (hw : ws[n]? = some w) :
    ∃ v, operationAt? words (k.placeOfWrite w) = some (.set v) ∧
      Gray.decode (Register.valueOf s.hardware.register v) = n + 1 := by
  obtain ⟨hmem, hset⟩ := mem_final_of_write hquiet hlog (List.mem_of_getElem? hw)
  have hfinal : k.heir w ∈ k.final.list := k.covers_final.2.subset _ hmem
  have hat : k.final.list[k.placeOfWrite w]? = some (k.heir w) := List.getElem?_idxOf hfinal
  refine ⟨_, (set_of_operationAt? h).2 ⟨_, hat, hset, rfl⟩, ?_⟩
  have hnumbered : Register.Numbered k.frame.register := by
    rw [k.register_eq]
    exact Sequence.numbered_of_verify k.verified
  have hn : n + 1 ≤ k.frame.register.capacity := by
    have := (List.getElem?_eq_some_iff.1 hw).1
    have := hlog.room
    omega
  have hrecord : (ws.map k.heir)[n]? = some (k.heir w) := by rw [List.getElem?_map, hw]; rfl
  have hdecode := hnumbered.decode_valueOf hn fun j hj => by
    rw [bit_of_set h hfinal hset hj, k.get_final hmem]
    exact ((k.records_settled hquiet hlog.records).carries hrecord j hj).2
  rw [k.register_eq] at hdecode
  rw [hdecode]
  push_cast
  rfl

theorem others_of_logged {i v : Nat} (hv : operationAt? words i = some (.set v)) :
    (∃ w ∈ ws, i = k.placeOfWrite w) ∨ Bits.and v (Register.mask s.hardware.register) = 0 ∨
      (∀ l ∈ k.ledger.list, k.final.list[i]? ≠ some l) ∧ ∃ j < i, operationAt? words j = some (.set v) ∧
        ∀ m, j < m → m < i → ∀ u, operationAt? words m ≠ some (.set u) := by
  obtain ⟨x, hx, hset, rfl⟩ := (set_of_operationAt? h).1 hv
  have hfinal := List.mem_of_getElem? hx
  by_cases hledger : x ∈ k.ledger.list
  · have hsettled : x ∈ k.settled.list := k.perm_settled.mem_iff.2 hledger
    by_cases hwrite : x ∈ ws.map k.heir
    · obtain ⟨w, hw, rfl⟩ := List.mem_map.1 hwrite
      obtain ⟨hi, hget⟩ := List.getElem?_eq_some_iff.1 hx
      refine .inl ⟨w, hw, ?_⟩
      rw [placeOfWrite, ← hget, k.scheduled_final.nodup.idxOf_getElem i hi]
    · refine .inr (.inl (Bits.and_eq_zero.2 fun j => ?_))
      cases hj : Bits.bit (Register.mask s.hardware.register) j with
      | false => rw [Bool.and_false]
      | true =>
        rw [← k.register_eq] at hj
        rw [bit_of_set h hfinal hset hj, k.get_final hsettled, Bool.and_true]
        rw [k.get_final hsettled] at hset
        exact (k.records_settled hquiet hlog.records).other x (Draft.mem_sets.2 ⟨hsettled, hset⟩) hwrite j hj
  · refine .inr (.inr ⟨fun l hl hl' => ?_, ?_⟩)
    · rw [hx] at hl'
      cases hl'
      exact hledger hl
    · rcases k.covers_final.2.repeats hx hset with hmem | ⟨y, hy, hvalue⟩
      · exact absurd (k.perm_settled.mem_iff.1 hmem) hledger
      · rw [Option.or_none] at hy
        obtain ⟨j, hj, hat, hbetween⟩ := exists_of_getLast?_filter hy
        have hyset := (List.mem_filter.1 (List.mem_of_getLast? hy)).2
        refine ⟨j, hj, (set_of_operationAt? h).2 ⟨y, hat, hyset, by rw [hvalue]⟩, fun m hjm hmi u hu => ?_⟩
        obtain ⟨z, hz, hzset, -⟩ := (set_of_operationAt? h).1 hu
        rw [hbetween m hjm hmi z hz] at hzset
        cases hzset

omit hquiet hlog in
theorem lands_of_wrote {sl : Slot} {r : Rung} {w : Label}
    (hw : Build.Wrote k.frame k.slots k.emitted.draft (.landing sl r) w) :
    ∃ i, operationAt? words i = some (.jump (r.threshold.equal 0)
      (if r.threshold.equal 0 then 0 else sl.channel).toWhole.toNat
      (if r.threshold.equal 0 then 0 else r.threshold).toWhole.toNat (k.placeOfWrite w + 1)) := by
  obtain ⟨x, hx, ref, -, -, hact⟩ := hw
  obtain ⟨hledger, hfinal, -⟩ := jump_final hx hact
  refine ⟨_, (operationAt?_idxOf h (k.mem_final hledger)).trans (congrArg some ?_)⟩
  rw [Draft.linked, hfinal]
  rfl

end Logged

end Layout

/-- In a program without colliding control writes, the writes have the ids from 1 on, each of which can be read off the
word that its write has ended up in. -/
theorem Sequence.exists_chronicle [Collation] {c : Compiled} (h : (s.compile variant o).outcome = .ok c)
    (hquiet : (s.compile variant o).Quiet) : ∃ (k : Layout s variant o) (ws : List Label), k.Chronicle c.words ws := by
  obtain ⟨k, hencode⟩ := Layout.exists_of_compile h
  have hk := k.quiet_of_compile hquiet
  obtain ⟨ws, hlog, hwrote⟩ := k.exists_logged hk.drawn
  refine ⟨k, ws, hencode, hwrote, ?_, fun n w => Layout.reads_of_logged hk hencode hlog,
    fun i v => Layout.others_of_logged hk hencode hlog, fun n sl r w hog hw => ?_, ?_⟩
  · have := hlog.room
    rwa [k.register_eq] at this
  · obtain ⟨hn, hget⟩ := List.getElem?_eq_some_iff.1 hog
    obtain ⟨hn', hget'⟩ := List.getElem?_eq_some_iff.1 hw
    have hat := hwrote.get hn hn'
    rw [List.get_eq_getElem, List.get_eq_getElem, hget, hget'] at hat
    exact Layout.lands_of_wrote hencode hat
  · intro m n x y a b hx hy hne ha hb heq
    obtain ⟨_, ha', hm⟩ := Layout.reads_of_logged hk hencode hlog hx
    obtain ⟨_, hb', hn⟩ := Layout.reads_of_logged hk hencode hlog hy
    cases ha.symm.trans ha'
    cases hb.symm.trans hb'
    have hvalue : Register.valueOf s.hardware.register a = Register.valueOf s.hardware.register b := by
      refine Register.valueOf_congr fun i hi => ?_
      have hbit := congrArg (Bits.bit · i) heq
      simpa [Bits.bit_and, hi] using hbit
    rw [hvalue, hn] at hm
    exact hne (by omega)

theorem Bench.quiet_gated : (gated.compile 0 quick).Quiet := by
  have hall : ((gated.compile 0 quick).warnings.all fun w => !w.collides) = true := by decide +kernel
  intro w hw
  simpa using List.all_eq_true.1 hall w hw

theorem Bench.gated_chronicle : (gated.compile 0 quick).Quiet ∧ ∃ c, (gated.compile 0 quick).outcome = .ok c ∧
    ∃ (k : Layout gated 0 quick) (ws : List Label), k.Chronicle c.words ws := by
  obtain ⟨c, hc⟩ := exists_compile_gated
  exact ⟨quiet_gated, c, hc, Sequence.exists_chronicle hc quiet_gated⟩

end PulseSequencer
