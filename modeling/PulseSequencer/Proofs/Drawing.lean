import PulseSequencer.Compiler.Frame
import PulseSequencer.Proofs.Growth
import PulseSequencer.Proofs.Pulses

/-!
# Instructions of pulses and control writes

* `Pulse.rise`, `Pulse.fall`, `Draft.draw` : the SETs of a pulse, and a draft with them;
* `Pulse.continues_draw`, `Pulse.outlines_draw` : drawn pulses outline their signal;
* `Frame.writing` : the SET that writes an id;
* `Build.continues_write`, `Build.continues_writeId`, `Build.continues_land` : control writes and landings.
-/

namespace PulseSequencer

/-! ## Pulses -/

/-- The SET that raises the line of a pulse. -/
def Pulse.rise (p : Pulse) : Instruction :=
  ⟨p.interval.start, none, none, [], .set ⟨Bits.single p.line, Bits.single p.line, 0, false⟩⟩

/-- The SET that lowers the line of a pulse. -/
def Pulse.fall (p : Pulse) : Instruction := ⟨p.interval.finish, none, none, [], .set ⟨0, Bits.single p.line, 0, false⟩⟩

/-- The draft with the SETs of the given pulses. -/
def Draft.draw (d : Draft) (ps : List Pulse) : Draft := ps.foldl (fun d p => (d.push p.rise).push p.fall) d

namespace Pulse

theorem draw_eq (d : Draft) (p : Pulse) : Pulse.draw d p = .ok ((d.push p.rise).push p.fall) := by
  have hrise : d.board.addSet p.interval.start (Bits.single p.line) (Bits.single p.line) none false =
      .ok (d.board.add p.rise) := Board.addSet_eq_ok.2 ⟨Bits.without_eq_zero.2 fun _ h => h, rfl⟩
  have hfall : (d.board.add p.rise).2.addSet p.interval.finish 0 (Bits.single p.line) none false =
      .ok ((d.board.add p.rise).2.add p.fall) :=
    Board.addSet_eq_ok.2 ⟨Bits.without_eq_zero.2 fun _ h => by simp at h, rfl⟩
  refine Except.bind_eq_ok.2 ⟨_, hrise, Except.bind_eq_ok.2 ⟨_, hfall, ?_⟩⟩
  simp only [Draft.append, Draft.push, Board.fst_add, List.append_assoc, List.singleton_append]
  rfl

theorem foldlM_draw (ps : List Pulse) : ∀ d : Draft, ps.foldlM Pulse.draw d = .ok (d.draw ps) := by
  induction ps with
  | nil => exact fun _ => rfl
  | cons p ps ih => exact fun d => Except.foldlM_cons_eq_ok.2 ⟨_, draw_eq d p, ih _⟩

variable {h : Hardware} {ps : List Pulse}

theorem trueTo_rise (hs : Sound h ps) {p : Pulse} (hp : p ∈ ps) (lines : Int) :
    p.rise.drive.TrueTo lines (stateAt ps p.rise.time) := by
  intro i _ hi
  have hi' : i = Bits.position p.line := by simpa [rise, Instruction.drive] using hi
  subst hi'
  exact hi.trans (bit_stateAt_start hs hp).symm

theorem trueTo_fall (hs : Sound h ps) {p : Pulse} (hp : p ∈ ps) (lines : Int) :
    p.fall.drive.TrueTo lines (stateAt ps p.fall.time) := by
  intro i _ hi
  have hi' : i = Bits.position p.line := by simpa [fall, Instruction.drive] using hi
  subst hi'
  exact (Bits.bit_zero _).trans (bit_stateAt_finish hs hp).symm

/-- A SET of the draft that stands for an instruction without a block. -/
def Drawn (d : Draft) (i : Instruction) : Prop :=
  ∃ l ∈ d.sets, d.board.time l = i.time ∧ (d.board.get l).block = none ∧ (d.board.get l).drive = i.drive

theorem Drawn.of_leading {d d' : Draft} (h : d.Leading d') {i : Instruction} (hi : Drawn d i) : Drawn d' i := by
  obtain ⟨l, hl, htime, hblock, hdrive⟩ := hi
  obtain ⟨h1, h2, h3⟩ := h.same l hl
  obtain ⟨new, hsets⟩ := h.sets
  exact ⟨l, by rw [hsets]; exact List.mem_append_left _ hl, h1.trans htime, h2.trans hblock, h3.trans hdrive⟩

theorem drawn_push {d : Draft} (hd : d.Linked) {i : Instruction} (hset : i.isSet = true) (hb : i.block = none) :
    Drawn (d.push i) i := by
  refine ⟨d.board.size, ?_, ?_, ?_, ?_⟩
  · rw [Draft.sets_push hd.valid, if_pos hset]
    simp
  · rw [Board.time, Draft.get_push_size]
  · rw [Draft.get_push_size, hb]
  · rw [Draft.get_push_size]

/-- Drawing pulses adds their SETs, which are true to the signal of all pulses. -/
theorem continues_draw (hs : Sound h ps) {lines : Int} {qs : List Pulse} : ∀ {d : Draft}, (∀ p ∈ qs, p ∈ ps) →
    d.Linked → d.Faithful (stateAt ps) lines → Draft.Continues (stateAt ps) lines [] [] [] d (d.draw qs) ∧
      ∀ p ∈ qs, Drawn (d.draw qs) p.rise ∧ Drawn (d.draw qs) p.fall := by
  induction qs with
  | nil => exact fun _ hd hf => ⟨.refl hd hf, by simp⟩
  | cons p qs ih =>
    intro d hqs hd hf
    have hp := hqs p List.mem_cons_self
    have hrise : Draft.Continues (stateAt ps) lines [] [] [] d (d.push p.rise) :=
      Draft.continues_push hd hf rfl (fun _ h => by cases h) rfl (fun _ h => h) (trueTo_rise hs hp lines)
    have hfall : Draft.Continues (stateAt ps) lines [] [] [] (d.push p.rise) ((d.push p.rise).push p.fall) :=
      Draft.continues_push hrise.linked hrise.faithful rfl (fun _ h => by cases h) rfl
        (fun i hi => by simp [fall, Instruction.drive] at hi) (trueTo_fall hs hp lines)
    have hboth := hrise.trans hfall (by simp)
    obtain ⟨hrest, hdrawn⟩ := ih (fun q hq => hqs q (List.mem_cons_of_mem _ hq)) hboth.linked hboth.faithful
    refine ⟨hboth.trans hrest (by simp), fun q hq => ?_⟩
    rcases List.mem_cons.1 hq with rfl | hq
    · exact ⟨((drawn_push hd rfl rfl).of_leading hfall.leading).of_leading hrest.leading,
        (drawn_push hrise.linked rfl rfl).of_leading hrest.leading⟩
    · exact hdrawn q hq

theorem outlines_draw (hs : Sound h ps) {lines : Int} {d : Draft} (hd : d.Linked) (hf : d.Faithful (stateAt ps) lines) :
    (d.draw ps).Outlines (stateAt ps) lines := by
  obtain ⟨hcont, hdrawn⟩ := continues_draw hs (fun _ h => h) hd hf
  refine ⟨hcont.faithful, fun t i _ hne => ?_⟩
  obtain ⟨p, hp, rfl, htime⟩ := exists_of_edge hne
  obtain ⟨i, hi, ht, hmask⟩ : ∃ i, Drawn (d.draw ps) i ∧ i.time = t ∧
      Bits.bit i.drive.mask (Bits.position p.line) = true := by
    rcases htime with ht | ht
    · exact ⟨p.rise, (hdrawn p hp).1, ht, by simp [rise, Instruction.drive]⟩
    · exact ⟨p.fall, (hdrawn p hp).2, ht, by simp [fall, Instruction.drive]⟩
  obtain ⟨l, hl, htime, hblock, hdrive⟩ := hi
  exact ⟨l, ⟨hl, .inl hblock⟩, htime.trans ht, by rw [hdrive]; exact hmask⟩

end Pulse

/-! ## Control writes -/

/-- The SET that writes an id. -/
def Frame.writing (f : Frame) (id : Nat) (tick : Int) (block : Option String) : Instruction :=
  ⟨tick, block, none, [], .set ⟨f.register.stateOf (Gray.encode id), f.register.mask, 0, true⟩⟩

/-- What drives the register only is true to all that the other lines do. -/
theorem Drive.trueTo_of_register (r : Register) (value state polarity : Int) (marker : Bool) :
    (⟨value, r.mask, polarity, marker⟩ : Drive).TrueTo r.complement state := by
  intro i hi hm
  rw [Register.bit_complement] at hi
  simp only at hm
  simp [hm] at hi

namespace Build

variable {f : Frame} {b b' : Build} {l : Label} {signal : Int → Int} {names : List String} {block : Option String}

theorem addSet_eq_ok {time value mask : Int} {marker : Bool} (h : b.addSet time value mask block marker = .ok (l, b')) :
    Bits.without value mask = 0 ∧ l = b.draft.board.size ∧
      b' = { b with draft := b.draft.push ⟨time, block, none, [], .set ⟨value, mask, 0, marker⟩⟩ } := by
  obtain ⟨⟨x, board⟩, hadd, h⟩ := Except.bind_eq_ok.1 h
  obtain ⟨hin, hadd⟩ := Board.addSet_eq_ok.1 hadd
  obtain ⟨rfl, rfl⟩ := Prod.mk.inj hadd
  cases h
  exact ⟨hin, rfl, rfl⟩

theorem continues_addSet {lines time value mask : Int} {marker : Bool} (hd : b.draft.Linked)
    (hf : b.draft.Faithful signal lines) (hb : ∀ n, block = some n → n ∈ names)
    (htrue : (⟨value, mask, 0, marker⟩ : Drive).TrueTo lines (signal time))
    (h : b.addSet time value mask block marker = .ok (l, b')) :
    Draft.Continues signal lines names [] [] b.draft b'.draft ∧ l = b.draft.board.size ∧ l ∈ b'.draft.list ∧
      b'.draft.board.get l = ⟨time, block, none, [], .set ⟨value, mask, 0, marker⟩⟩ := by
  obtain ⟨hin, rfl, rfl⟩ := addSet_eq_ok h
  exact ⟨Draft.continues_push hd hf rfl hb rfl (Bits.without_eq_zero.1 hin) htrue, rfl, by simp,
    Draft.get_push_size _ _⟩

theorem continues_write {tick : Int} {id : Nat} (hd : b.draft.Linked)
    (hf : b.draft.Faithful signal f.register.complement) (hb : ∀ n, block = some n → n ∈ names)
    (h : b.write f tick id block = .ok (l, b')) :
    Draft.Continues signal f.register.complement names [] [] b.draft b'.draft ∧ b.draft.board.size ≤ l ∧
      l ∈ b'.draft.list ∧ b'.draft.board.get l = f.writing id tick block := by
  unfold write at h
  simp only at h
  split at h
  · cases h
  · obtain ⟨⟨x, b₁⟩, h1, h⟩ := Except.bind_eq_ok.1 h
    obtain ⟨⟨y, b₂⟩, h2, h⟩ := Except.bind_eq_ok.1 h
    cases h
    obtain ⟨hcont₁, rfl, hmem, hget⟩ := continues_addSet hd hf hb (Drive.trueTo_of_register _ _ _ _ _) h1
    obtain ⟨hcont₂, -, -, -⟩ := continues_addSet hcont₁.linked hcont₁.faithful hb
      (Drive.trueTo_of_register _ _ _ _ _) h2
    refine ⟨hcont₁.trans hcont₂ (by simp), le_refl _, hcont₂.grows.mem_list hmem, ?_⟩
    rw [hcont₂.grows.get_eq _ (hcont₁.linked.valid _ hmem) (by simp), hget]
    rfl

theorem continues_writeId {tick : Int} (hd : b.draft.Linked) (hf : b.draft.Faithful signal f.register.complement)
    (hb : ∀ n, block = some n → n ∈ names) (h : b.writeId f tick block = .ok (l, b')) :
    Draft.Continues signal f.register.complement names [] [] b.draft b'.draft ∧ b.draft.board.size ≤ l ∧
      l ∈ b'.draft.list ∧ ∃ id, b'.draft.board.get l = f.writing id tick block := by
  obtain ⟨⟨id, b₁⟩, hid, h⟩ := Except.bind_eq_ok.1 h
  have hdraft : b₁.draft = b.draft := by
    unfold newId at hid
    simp only at hid
    split at hid
    · cases hid
    · cases hid
      rfl
  rw [← hdraft] at hd hf ⊢
  obtain ⟨h1, h2, h3, h4⟩ := continues_write hd hf hb h
  exact ⟨h1, h2, h3, id, h4⟩

/-- A landing is a control write with the state of its tick beside it. -/
theorem continues_land {tick : Int} (hd : b.draft.Linked)
    (hf : b.draft.Faithful (Pulse.stateAt f.pulses) f.register.complement) (h : b.land f tick = .ok (l, b')) :
    Draft.Continues (Pulse.stateAt f.pulses) f.register.complement names [] [] b.draft b'.draft ∧
      b.draft.board.size ≤ l ∧ l ∈ b'.draft.list ∧ ∃ id, b'.draft.board.get l = f.writing id tick none := by
  obtain ⟨⟨x, b₁⟩, h1, h⟩ := Except.bind_eq_ok.1 h
  obtain ⟨⟨y, b₂⟩, h2, h⟩ := Except.bind_eq_ok.1 h
  cases h
  obtain ⟨hcont₁, hle, hmem, id, hget⟩ := continues_writeId hd hf (fun _ h => by cases h) h1
  obtain ⟨hcont₂, -, -, -⟩ := continues_addSet hcont₁.linked hcont₁.faithful (fun _ h => by cases h)
    (fun _ _ _ => rfl) h2
  refine ⟨hcont₁.trans hcont₂ (by simp), hle, hcont₂.grows.mem_list hmem, id, ?_⟩
  rw [hcont₂.grows.get_eq _ (hcont₁.linked.valid _ hmem) (by simp), hget]

end Build

end PulseSequencer
