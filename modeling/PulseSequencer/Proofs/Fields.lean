import PulseSequencer.Proofs.MirroredStages
import PulseSequencer.Proofs.Overflow

/-!
# Fields that always fit

Whatever is on the board of a compilation fits the bus and the tests of JUMPs. That leaves the durations of WAITs and
the addresses of JUMPs.

* `Instruction.Fit`, `Board.Fits` : bus values of 24 bits, counter channels and thresholds in range;
* `Board.Fits.unite`, `Draft.fits_mergeSets`, `Build.fits_emit` : the passes and the jumps keep them so;
* `Layout.fits_addressed` : the words are encoded from fields that fit;
* `Sequence.overflow_cases` : what a compilation can overflow on.
-/

namespace PulseSequencer

/-! ## Instructions -/

/-- No bit past the bus is driven or inverted. -/
def Drive.Narrow (d : Drive) : Prop :=
  ∀ i, Hardware.outputLimit ≤ i → Bits.bit d.value i = false ∧ Bits.bit d.polarity i = false

theorem Drive.narrow_of_value {value mask : Int} {marker : Bool}
    (h : ∀ i, Hardware.outputLimit ≤ i → Bits.bit value i = false) : (⟨value, mask, 0, marker⟩ : Drive).Narrow :=
  fun i hi => ⟨h i hi, Bits.bit_zero i⟩

theorem Drive.narrow_zero {mask : Int} {marker : Bool} : (⟨0, mask, 0, marker⟩ : Drive).Narrow :=
  narrow_of_value fun i _ => Bits.bit_zero i

/-- A SET that keeps to the bus, or a JUMP that tests a counter of the hardware for a count that it can have. -/
structure Instruction.Fit (i : Instruction) : Prop where
  drive : i.drive.Narrow
  test : ∀ always channel threshold g, i.action = .jump always channel threshold g →
    Hardware.Numbers Word.channelLimit channel ∧ Hardware.Numbers Word.thresholdLimit threshold

namespace Instruction

theorem fit_of_isSet {i : Instruction} (hset : i.isSet = true) (h : i.drive.Narrow) : i.Fit := by
  refine ⟨h, fun always channel threshold g hact => ?_⟩
  rw [isSet, hact] at hset
  cases hset

/-- What is neither a SET nor a JUMP fits. -/
theorem fit_of_ne {i : Instruction} (hset : i.isSet = false) (h : i.target? = none) : i.Fit := by
  refine ⟨?_, fun always channel threshold g hact => ?_⟩
  · have hdrive : i.drive = ⟨0, 0, 0, false⟩ := by
      unfold isSet at hset
      unfold Instruction.drive
      cases hact : i.action <;> simp_all
    rw [hdrive]
    exact Drive.narrow_zero
  · rw [target?, hact] at h
    cases h

theorem Fit.of_action {i j : Instruction} (h : i.Fit) (hact : j.action = i.action) : j.Fit := by
  have hdrive : j.drive = i.drive := by rw [Instruction.drive, Instruction.drive, hact]
  exact ⟨hdrive ▸ h.drive, fun always channel threshold g hj => h.test always channel threshold g (hact ▸ hj)⟩

theorem Fit.redirect {i : Instruction} (h : i.Fit) (g : Label) : (Board.redirect g i).Fit := by
  unfold Board.redirect
  split
  · rename_i always channel threshold g' hact
    refine ⟨Drive.narrow_zero, fun a c t _ hj => ?_⟩
    cases hj
    exact h.test always channel threshold g' hact
  · exact h

end Instruction

/-! ## Boards -/

namespace Board

/-- Everything on the board fits. -/
def Fits (b : Board) : Prop := ∀ l, (b.get l).Fit

variable {b b' : Board}

theorem Fits.add (h : b.Fits) {i : Instruction} (hi : i.Fit) : (b.add i).2.Fits := by
  intro l
  rw [get_add]
  split
  · exact hi
  · exact h l

theorem Fits.modify (h : b.Fits) {f : Instruction → Instruction} (l : Label) (hf : (b.get l).Fit → (f (b.get l)).Fit) :
    (b.modify l f).Fits := by
  intro m
  rw [get_modify]
  split
  · rename_i hm
    rw [hm.1]
    exact hf (h l)
  · exact h m

theorem Fits.foldl_modify {f : Instruction → Instruction} (hf : ∀ i : Instruction, i.Fit → (f i).Fit)
    {ls : List Label} : ∀ {b : Board}, b.Fits → (ls.foldl (fun b l => b.modify l f) b).Fits := by
  induction ls with
  | nil => exact fun h => h
  | cons l ls ih => exact fun h => ih (h.modify l (hf _))

theorem Fits.of_retimed (h : b.Fits) (hr : b.Retimed b') : b'.Fits := fun l => (h l).of_action (by rw [hr.get])

/-- A SET that several were united into keeps to the bus if they did. -/
theorem narrow_of_unionDrive {time m : Int} {ds : List Drive} : ∀ {d r : Drive}, d.Narrow → (∀ e ∈ ds, e.Narrow) →
    (unionDrive time m d ds).outcome = .ok r → r.Narrow := by
  induction ds with
  | nil =>
    intro d r hd _ h
    cases h
    exact hd
  | cons e ds ih =>
    intro d r hd hds h
    have hjoin : (join d e).Narrow := fun i hi => by
      obtain ⟨hv, hp⟩ := hd i hi
      obtain ⟨hv', hp'⟩ := hds e List.mem_cons_self i hi
      simp [join, hv, hp, hv', hp']
    exact ih hjoin (fun x hx => hds x (List.mem_cons_of_mem _ hx)) (unionDrive_cons_eq_ok.1 h).2

theorem Fits.unite (h : b.Fits) {m : Int} {sets : List Label} {u : Label}
    (hu : (b.unite m sets).outcome = .ok (u, b')) : b'.Fits := by
  obtain ⟨first, block, d, -, -, hd, -, -, rfl⟩ := unite_eq_ok.1 hu
  have hdrive : d.Narrow := by
    refine narrow_of_unionDrive Drive.narrow_zero (fun e he => ?_) hd
    obtain ⟨l, -, rfl⟩ := List.mem_map.1 he
    exact (h l).drive
  exact Fits.foldl_modify (fun i hi => hi.redirect u) (h.add (Instruction.fit_of_isSet rfl hdrive))

theorem Fits.inherit (h : b.Fits) (l previous : Label) (mask : Int) : (b.inherit l previous mask).Fits := by
  refine h.modify l fun hl => Instruction.fit_of_isSet rfl fun i hi => ?_
  rw [Instruction.drive_withDrive]
  obtain ⟨hv, hp⟩ := hl.drive i hi
  obtain ⟨hv', -⟩ := (h previous).drive i hi
  exact ⟨by simp [inheritDrive, hv, hv'], hp⟩

end Board

/-! ## Passes -/

namespace Draft

variable {d d' : Draft}

theorem fits_mergeSets (h : d.board.Fits) {m : Int} (hm : (d.mergeSets m).outcome = .ok d') : d'.board.Fits := by
  obtain ⟨⟨us, b⟩, hfold, hd'⟩ := Attempt.bind_eq_ok.1 hm
  cases hd'
  refine Attempt.foldlM_ok_induction (fun r : List Label × Board => r.2.Fits) (fun g _ r r' hr hstep => ?_)
    (b := ([], d.board)) h hfold
  unfold uniteGroup at hstep
  split at hstep
  · cases hstep
    exact hr
  · obtain ⟨⟨u, b'⟩, hunite, hstep⟩ := Attempt.bind_eq_ok.1 hstep
    cases hstep
    exact hr.unite hunite

theorem fits_inheritOutputs (h : d.board.Fits) {mask : Int} (hi : d.inheritOutputs mask = .ok d') : d'.board.Fits := by
  have hfrom : ∀ {ls : List Label} {p : Label} {b : Board}, b.Fits → (inheritFrom mask p b ls).Fits := by
    intro ls
    induction ls with
    | nil => exact fun hb => hb
    | cons l ls ih => exact fun hb => ih (hb.inherit l _ mask)
  obtain ⟨-, ⟨-, hboard⟩ | ⟨first, rest, -, -, hboard⟩⟩ := inheritOutputs_eq_ok hi
  · rw [hboard]
    exact h
  · rw [hboard]
    exact hfrom h

theorem fits_fillGaps (h : d.board.Fits) (hf : d.fillGaps = .ok d') : d'.board.Fits := by
  obtain ⟨⟨ls, b⟩, hfill, hd'⟩ := Except.bind_eq_ok.1 hf
  cases hd'
  suffices hfrom : ∀ {ls filled : List Label} {last : Int} {held : Option Label} {b b' : Board}, b.Fits →
      fillFrom last held b ls = .ok (filled, b') → b'.Fits from hfrom h hfill
  intro ls
  induction ls with
  | nil =>
    intro filled last held b b' hb h
    cases h
    exact hb
  | cons l ls ih =>
    intro filled last held b b' hb h
    obtain ⟨i, rest, hi, hrest, -⟩ := fillFrom_cons_eq_ok.1 h
    have hadded : (addFiller b i).2.Fits := by
      cases hi with
      | none => exact hb
      | @hold g => exact hb.add (Instruction.fit_of_isSet rfl (hb g).drive)
      | wait => exact hb.add (Instruction.fit_of_ne rfl rfl)
    exact ih hadded hrest

theorem fits_applyPolarity (h : d.board.Fits) {polarity : Int}
    (hp : ∀ i, Hardware.outputLimit ≤ i → Bits.bit polarity i = false) : (d.applyPolarity polarity).board.Fits :=
  Board.Fits.foldl_modify (f := fun i => i.withDrive { i.drive with polarity })
    (fun _ hi => Instruction.fit_of_isSet rfl fun j hj => ⟨(hi.drive j hj).1, hp j hj⟩) h

theorem fits_assignAddresses (h : d.board.Fits) (ha : d.assignAddresses = .ok d') : d'.board.Fits := by
  obtain ⟨b, haddress, hd'⟩ := Except.bind_eq_ok.1 ha
  cases hd'
  suffices hfrom : ∀ {ls : List Label} {last : Int} {next : Nat} {b b' : Board}, b.Fits →
      addressFrom last next b ls = .ok b' → b'.Fits from hfrom h haddress
  intro ls
  induction ls with
  | nil =>
    intro last next b b' hb h
    cases h
    exact hb
  | cons l ls ih =>
    intro last next b b' hb h
    unfold addressFrom at h
    simp only at h
    split at h
    · cases h
    · exact ih (hb.modify l fun hl => hl.of_action rfl) h

theorem fits_push (h : d.board.Fits) {i : Instruction} (hi : i.Fit) : (d.push i).board.Fits := h.add hi

theorem fits_pushJump (h : d.board.Fits) {time : Int} {g : Label} {always : Bool} {channel threshold : Binary64}
    {block : Option String} (hc : Hardware.Numbers Word.channelLimit channel)
    (ht : Hardware.Numbers Word.thresholdLimit threshold) :
    (d.pushJump time g always channel threshold block).board.Fits := by
  have hzero : ∀ {limit : Nat}, 0 < limit → Hardware.Numbers limit 0 := fun {limit} hl =>
    ⟨by decide, by decide, by
      rw [show (0 : Binary64).toWhole = 0 by decide]
      exact_mod_cast hl⟩
  have hadded : (d.board.add ⟨time, block, none, [], .jump always (if always then 0 else channel)
      (if always then 0 else threshold) g⟩).2.Fits := by
    refine h.add ⟨?_, fun a c t g' hj => ?_⟩
    · exact Drive.narrow_zero
    cases hj
    refine ⟨?_, ?_⟩ <;> split <;> first | assumption | exact hzero (by decide)
  exact hadded.modify (f := fun i => { i with reachedBy := i.reachedBy ++ [d.board.size] }) g fun hg => hg.of_action rfl

end Draft

/-! ## Control writes and jumps -/

/-- A frame whose control writes and landings keep to the bus. -/
structure Frame.Narrow (f : Frame) : Prop where
  register : ∀ value i, Hardware.outputLimit ≤ i → Bits.bit (f.register.stateOf value) i = false
  state : ∀ tick i, Hardware.outputLimit ≤ i → Bits.bit (Pulse.stateAt f.pulses tick) i = false

/-- Merging rungs makes no threshold larger. -/
theorem Ladder.lt_of_merge {l : Ladder} {c : Binary64} (h : ∀ r ∈ l, r.threshold < c) :
    ∀ r ∈ l.merge, r.threshold < c := by
  have hnumber : ∀ {x : Binary64}, x < c → x.isNaN = false := fun {x} hx => by
    cases x with
    | nan => cases hx
    | _ => rfl
  have hfrom : ∀ {rest : Ladder} {last : Rung}, (∀ r ∈ last :: rest, r.threshold < c) →
      ∀ r ∈ mergeFrom last rest, r.threshold < c := by
    intro rest
    induction rest with
    | nil => exact fun h => h
    | cons x rest ih =>
      intro last h
      have hlast := h last List.mem_cons_self
      have hx := h x (by simp)
      unfold mergeFrom
      split
      · refine ih (List.forall_mem_cons.2 ⟨?_, fun r hr => h r (by simp [hr])⟩)
        change (last.threshold.min x.threshold) < c
        unfold Binary64.min
        split
        · rename_i hnan
          rw [hnumber hlast, hnumber hx] at hnan
          cases hnan
        · split
          · exact hx
          · exact hlast
      · exact List.forall_mem_cons.2 ⟨hlast, ih fun r hr => h r (List.mem_cons_of_mem _ hr)⟩
  cases l with
  | nil => exact h
  | cons r rest => exact hfrom h

/-- The thresholds of a jump are counts. -/
theorem Ladder.numbers_of_mergedLadder {j : Jump} {l : Ladder} (h : j.mergedLadder = .ok l) :
    ∀ r ∈ l, Hardware.Numbers Word.thresholdLimit r.threshold := by
  have hground := grounded_of_mergedLadder h
  obtain ⟨raw, hraw, h⟩ := Except.bind_eq_ok.1 h
  cases h
  obtain ⟨rules, -, hraw⟩ := Except.bind_eq_ok.1 hraw
  obtain ⟨ranges, hranges, hraw⟩ := Except.bind_eq_ok.1 hraw
  split at hraw
  · cases hraw
  have hbound := (descending_of_descend (le_refl _) (fun range hrange =>
    (CountRange.start_lt_stop_of_ofConditions hranges range (Sort.mem_sortBy.1 hrange)).1) hraw).2
  intro r hr
  obtain ⟨n, hn⟩ := hground.natural r hr
  have hlt : r.threshold < .finite (Condition.countLimit : Nat) := lt_of_merge hbound r hr
  rw [hn, Binary64.finite_lt, Nat.cast_lt] at hlt
  rw [hn]
  have hwhole : (Binary64.finite n).toWhole = n := by
    rw [← Int.cast_natCast]
    exact Binary64.toWhole_finite_intCast n
  exact ⟨by simp [Binary64.isWhole], by rw [hwhole]; exact Int.natCast_nonneg n, by rw [hwhole]; exact_mod_cast hlt⟩

namespace Build

variable {f : Frame} {slots : List Slot} {s : Slot} {b b' : Build}

theorem fits_writeId (hf : f.Narrow) (h : b.draft.board.Fits) {tick : Int} {block : Option String} {l : Label}
    (hw : b.writeId f tick block = .ok (l, b')) : b'.draft.board.Fits := by
  obtain ⟨-, -, -, rfl⟩ := writeId_eq_ok.1 hw
  refine Draft.fits_push (Draft.fits_push h (Instruction.fit_of_isSet rfl ?_))
    (Instruction.fit_of_isSet rfl Drive.narrow_zero)
  exact Drive.narrow_of_value (hf.register _)

theorem fits_targetOf (hf : f.Narrow) (h : b.draft.board.Fits) {name : String} {t : Target} {g : Label}
    (ht : (targetOf f slots name t b).outcome = .ok (g, b')) : b'.draft.board.Fits := by
  cases t with
  | terminate =>
    cases ht
    exact h
  | pass => cases ht
  | destination r =>
    obtain ⟨tick, -, hland⟩ := Attempt.bind_eq_ok.1 ht
    obtain ⟨⟨x, b₁⟩, hwrite, hland⟩ := Except.bind_eq_ok.1 (Attempt.ofExcept_eq_ok.1 hland)
    obtain ⟨⟨y, b₂⟩, hset, hpure⟩ := Except.bind_eq_ok.1 hland
    cases hpure
    obtain ⟨-, -, rfl⟩ := addSet_eq_ok hset
    exact Draft.fits_push (fits_writeId hf h hwrite) (Instruction.fit_of_isSet rfl (Drive.narrow_of_value (hf.state _)))

theorem fits_emitRungs (hf : f.Narrow) (hc : Hardware.Numbers Word.channelLimit s.channel) {marker : Option Label}
    {total : Nat} {rungs : Ladder} : ∀ {tick : Int} {b : Build}, b.draft.board.Fits →
    (∀ r ∈ rungs, Hardware.Numbers Word.thresholdLimit r.threshold) →
    (emitRungs f slots s marker total tick rungs b).outcome = .ok b' → b'.draft.board.Fits := by
  induction rungs with
  | nil =>
    intro tick b h _ hok
    cases hok
    exact h
  | cons r rest ih =>
    intro tick b h hr hok
    obtain ⟨g, b₁, hg, hrest⟩ := emitRungs_cons_eq_ok hok
    have h₁ : b₁.draft.board.Fits := by
      rcases hg with ⟨-, -, rfl⟩ | hg
      · exact h
      · exact fits_targetOf hf h hg
    exact ih (Draft.fits_pushJump h₁ hc (hr r List.mem_cons_self)) (fun x hx => hr x (List.mem_cons_of_mem _ hx)) hrest

theorem fits_emit (hf : f.Narrow) (hc : Hardware.Numbers Word.channelLimit s.channel) (h : b.draft.board.Fits)
    (hok : (emit f slots s b).outcome = .ok b') : b'.draft.board.Fits := by
  obtain ⟨ladder, hladder, -⟩ := Attempt.bind_eq_ok.1 hok
  have hladder := Attempt.ofExcept_eq_ok.1 hladder
  have hnum := Ladder.numbers_of_mergedLadder hladder
  rcases emit_eq_ok hladder hok with ⟨r, -, -, rfl⟩ | ⟨r, g, b₁, -, -, hg, rfl⟩ | ⟨-, marker, b₁, hmarker, hrungs⟩
  · exact h
  · exact Draft.fits_pushJump (fits_targetOf hf h hg) hc ⟨by decide, by decide, by decide⟩
  · have h₁ : b₁.draft.board.Fits := by
      rcases hmarker with ⟨-, m, -, hw⟩ | ⟨-, -, rfl⟩
      · exact fits_writeId hf h hw
      · exact h
    exact fits_emitRungs hf hc h₁ (fun r hr => hnum r (mem_of_mem_jumpRungs hr)) hrungs

end Build

/-! ## Compilations -/

section Compilations

variable {s : Sequence} {variant : Binary64} {o : Options}

theorem Opening.narrow (k : Opening s variant o) : k.frame.Narrow := by
  have hchecked := (Sequence.verified_of_verify k.verified).hardware
  refine ⟨fun value i hi => ?_, fun tick i hi => ?_⟩
  · rw [k.register_eq, ← Bool.not_eq_true]
    intro hbit
    have hmask := Register.bit_mask_of_stateOf hbit
    rw [Register.mask, Hardware.bit_maskOf, List.any_eq_true] at hmask
    obtain ⟨c, hc, hbit⟩ := hmask
    obtain ⟨r, hr, rfl⟩ := List.mem_map.1 hc
    have := Hardware.position_lt_of_numbers (hchecked.register r hr)
    simp only [decide_eq_true_eq] at hbit
    omega
  · rw [← Bool.not_eq_true]
    intro hbit
    have hline := Pulse.bit_complement_of_stateAt k.sound hbit
    rw [Register.bit_complement, decide_eq_false (Nat.not_lt.2 hi)] at hline
    cases hline

theorem Opening.fits_drawn (k : Opening s variant o) : k.drawn.board.Fits := by
  have hdraw : ∀ {ps : List Pulse} {d : Draft}, (∀ p ∈ ps, Pulse.OnLine s.hardware p.line) → d.board.Fits →
      (d.draw ps).board.Fits := by
    intro ps
    induction ps with
    | nil => exact fun _ h => h
    | cons p ps ih =>
      intro d hps h
      have hrise : p.rise.Fit := Instruction.fit_of_isSet rfl (Drive.narrow_of_value fun i hi => by
        have hp := hps p List.mem_cons_self
        have hlt := hp.lt
        have hnonneg := hp.nonneg
        rw [Bits.bit_single, hp.position, decide_eq_false (by omega)])
      exact ih (fun q hq => hps q (List.mem_cons_of_mem _ hq))
        (Draft.fits_push (Draft.fits_push h hrise) (Instruction.fit_of_isSet rfl Drive.narrow_zero))
  have hblank : (Build.blank k.length).draft.board.Fits := by
    intro l
    cases l with
    | zero => exact Instruction.fit_of_ne rfl rfl
    | succ l => exact Instruction.fit_of_ne rfl rfl
  refine hdraw k.sound.onLine ?_
  obtain ⟨b₁, hb₁, hbegun⟩ := k.begun_cases
  rw [hbegun]
  rcases hb₁ with ⟨-, l, hw⟩ | ⟨-, rfl⟩
  · have h₁ := Build.fits_writeId k.narrow hblank hw
    exact h₁
  · exact hblank

theorem Sketch.fits_emitted (k : Sketch s variant o) : k.emitted.draft.board.Fits := by
  have hchecked := (Sequence.verified_of_verify k.verified).hardware
  refine Attempt.foldlM_ok_induction (fun b : Build => b.draft.board.Fits) (fun sl hsl b b' hb hstep => ?_)
    (b := { k.begun with draft := k.outlined }) (Draft.fits_mergeSets k.fits_drawn k.outlined_eq) k.emitted_eq
  obtain ⟨e, -, -, -, p, hp, hchannel⟩ := k.exists_jump (Sort.mem_sortBy.1 hsl)
  rw [show k.frame.sequence.hardware = s.hardware from congrArg Sequence.hardware k.sequence_eq] at hp
  refine Build.fits_emit k.narrow ?_ hb hstep
  rw [hchannel]
  exact hchecked.counter p (Pulse.mem_of_pulseCounter hp).1

theorem Layout.fits_addressed [Collation] (k : Layout s variant o) : k.addressed.board.Fits := by
  have hchecked := (Sequence.verified_of_verify k.verified).hardware
  have hstarted : k.started.board.Fits := Draft.fits_push (Draft.fits_mergeSets k.fits_emitted k.joined_eq)
    (Instruction.fit_of_isSet rfl (Drive.narrow_of_value (k.narrow.state 0)))
  have hledger : k.ledger.board.Fits := Draft.fits_mergeSets (Draft.fits_inheritOutputs
    (Draft.fits_mergeSets hstarted k.merged_eq) k.carried_eq) k.ledger_eq
  have hfilled : k.filled.board.Fits := Draft.fits_fillGaps (Draft.fits_inheritOutputs
    (hledger.of_retimed k.placement.retimed) k.settled_eq) k.filled_eq
  have hfinal : k.final.board.Fits := Draft.fits_mergeSets (d := k.filled.sort) hfilled k.final_eq
  exact Draft.fits_assignAddresses (Draft.fits_applyPolarity hfinal fun i hi =>
    Hardware.bit_polarityMask_of_le hchecked hi) k.addressed_eq

/-- The payload of a SET that fits. -/
theorem Instruction.Fit.physical_lt {i : Instruction} (h : i.Fit) {d : Drive} (hact : i.action = .set d) :
    Board.physical d < Word.busLimit := by
  have hdrive : d.Narrow := by
    have := h.drive
    rwa [Instruction.drive, hact] at this
  change Board.physical d < 2 ^ Hardware.outputLimit
  rw [Board.physical, Bits.unsigned_lt_iff]
  intro i hi
  rw [Bits.bit_xor, (hdrive i hi).1, (hdrive i hi).2]
  rfl

/-- Numbers of a range pass the check of a field for that range. -/
theorem Hardware.Numbers.in_field {limit : Nat} {x : Binary64} (h : Numbers limit x)
    (hlimit : limit - 1 ≤ Binary64.significandLimit) : ¬ (x < 0 ∨ .ofNat (limit - 1) < x) := by
  have hfinite := Binary64.isFinite_of_isWhole h.whole
  rw [Binary64.zero_eq, Binary64.ofNat_eq hlimit, Binary64.lt_iff_value hfinite rfl, Binary64.lt_iff_value rfl hfinite,
    Binary64.value_eq_toWhole h.whole]
  have hnonneg := h.nonneg
  have hlt := h.lt
  rintro (hneg | hover)
  · have : x.toWhole < 0 := Int.cast_lt_zero.1 hneg
    omega
  · have : (((limit - 1 : Nat) : Int) : Rat) < x.toWhole := by
      rw [Int.cast_natCast]
      exact hover
    have := Int.cast_lt.1 this
    omega

/-- Which field of an instruction that fits can overflow. -/
theorem Board.overflow_of_fit {b : Board} {l : Label} {f : Fault} (hl : (b.get l).Fit) (h : b.operation l = .error f)
    (hf : f.kind = .fieldOverflow) :
    (∃ duration, (b.get l).action = .wait duration ∧ (duration.isWhole && decide (1 ≤ duration) &&
      decide (duration < .ofNat Word.durationLimit)) = false ∧ f = overflow (b.get l) "duration" duration.text) ∨
    ∃ always channel threshold g address, (b.get l).action = .jump always channel threshold g ∧
      (b.get g).address = some address ∧ (address < 1 ∨ (Word.addressLimit - 1 : Nat) < address) ∧
      f = overflow (b.get l) "address" (wholeText address) := by
  unfold operation at h
  simp only at h
  split at h
  · rename_i duration hact
    split at h
    · cases h
    · rename_i hfits
      exact .inl ⟨duration, hact, by simpa using hfits, (Except.error.inj h).symm⟩
  · rename_i d hact
    rw [if_pos (hl.physical_lt hact)] at h
    cases h
  · rename_i always channel threshold g hact
    obtain ⟨hc, ht⟩ := hl.test _ _ _ _ hact
    split at h
    · cases h
      cases hf
    split at h
    · cases h
      cases hf
    rename_i address haddress
    rw [if_neg (hc.in_field (by decide)), if_neg (ht.in_field (by decide))] at h
    split at h
    · rename_i hrange
      exact .inr ⟨always, channel, threshold, g, address, hact, haddress, hrange, (Except.error.inj h).symm⟩
    · cases h
  · cases h

/-- Polarity and addresses leave the actions other than SETs. -/
theorem Draft.Addressed.action_of_ne_set {d a : Draft} {polarity : Int} (ha : d.Addressed polarity a) {l : Label}
    (hl : l ∈ d.list) {act : Action} (hact : (a.board.get l).action = act) (hno : ∀ drive, act ≠ .set drive) :
    (d.board.get l).action = act := by
  rw [← hact]
  refine (ha.action_of_not_isSet hl ?_).symm
  by_contra hset
  rw [ha.get l hl, Instruction.polarize, if_pos (Bool.eq_true_of_not_eq_false hset)] at hact
  exact hno _ hact.symm

/-- The durations of a layout are whole numbers of ticks. -/
theorem Layout.exists_ticks_of_wait [Collation] (k : Layout s variant o) {l : Label} (hl : l ∈ k.addressed.list)
    {duration : Binary64} (hact : (k.addressed.board.get l).action = .wait duration) :
    ∃ n : Int, 1 ≤ n ∧ duration = .ofInt n := by
  rw [k.addressed_final.list] at hl
  have hact := k.addressed_final.action_of_ne_set hl hact nofun
  have hno : ∀ x ∈ k.settled.list, ∀ d, (k.final.board.get x).action ≠ .wait d := fun x hx d => by
    rw [k.get_final hx]
    exact k.timed.noWait x hx d
  obtain ⟨-, n, hn, hduration, -⟩ := k.covers_final.2.gap_of_wait hno l hl duration hact
  exact ⟨n, hn, hduration⟩

/-- The places of a layout are counted from one. -/
theorem Layout.one_le_address [Collation] (k : Layout s variant o) {l g : Label} {always : Bool}
    {channel threshold : Binary64} {address : Int} (hl : l ∈ k.addressed.list)
    (hact : (k.addressed.board.get l).action = .jump always channel threshold g)
    (haddress : (k.addressed.board.get g).address = some address) : 1 ≤ address := by
  rw [k.addressed_final.list] at hl
  have hact := k.addressed_final.action_of_ne_set hl hact nofun
  have hg : g ∈ k.final.list := k.scheduled_final.closed l hl g (by rw [Instruction.target?, hact])
  rw [k.addressed_final.get g hg] at haddress
  have := Option.some.inj haddress
  omega

end Compilations

/-- A verified sequence overflows in two fields only. Whatever the layout of a variant, its SETs fit the bus and its
JUMPs test a counter line against a threshold of sixteen bits; so a compilation that stops at a field stops at the
duration of a WAIT or at the address of a JUMP, which is too large. -/
theorem Sequence.overflow_cases [Collation] {s : Sequence} {variant : Binary64} {o : Options}
    (hverify : s.verify.outcome = .ok ()) :
    (∀ k : Layout s variant o, ∀ l ∈ k.addressed.list,
      (∀ d, (k.addressed.board.get l).action = .set d → Board.physical d < 2 ^ 24) ∧
      ∀ always channel threshold g, (k.addressed.board.get l).action = .jump always channel threshold g →
        Hardware.Numbers 8 channel ∧ Hardware.Numbers 65536 threshold) ∧
    ∀ f, (s.compile variant o).outcome = .error (.fault f) → f.kind = .fieldOverflow →
      ∃ k : Layout s variant o, k.addressed.encode = .error f ∧ ∃ l ∈ k.addressed.list,
        (∃ n : Int, 2 ^ 30 - 1 < n ∧ (k.addressed.board.get l).action = .wait (.ofInt n) ∧
          f = Board.overflow (k.addressed.board.get l) "duration" (Binary64.ofInt n).text) ∨
        ∃ always channel threshold g, ∃ address : Int, 1023 < address ∧
          (k.addressed.board.get l).action = .jump always channel threshold g ∧
          (k.addressed.board.get g).address = some address ∧
          f = Board.overflow (k.addressed.board.get l) "address" (wholeText address) := by
  refine ⟨fun k l hl => ⟨fun d hact => (k.fits_addressed l).physical_lt hact, (k.fits_addressed l).test⟩,
    fun f hcompile hf => ?_⟩
  obtain ⟨k, hencode⟩ := Layout.exists_of_overflow hverify hcompile hf
  obtain ⟨l, hl, hop⟩ := Draft.exists_of_encode_error hencode
  refine ⟨k, hencode, l, hl, ?_⟩
  rcases Board.overflow_of_fit (k.fits_addressed l) hop hf with
    ⟨duration, hact, hfits, rfl⟩ | ⟨always, channel, threshold, g, address, hact, haddress, hrange, rfl⟩
  · obtain ⟨n, hn, rfl⟩ := k.exists_ticks_of_wait hl hact
    refine .inl ⟨n, ?_, hact, rfl⟩
    by_contra hle
    have hlt : n < Word.durationLimit := by
      unfold Word.durationLimit
      omega
    rw [(Binary64.duration_iff (by omega)).2 ⟨hn, hlt⟩] at hfits
    cases hfits
  · have hone := k.one_le_address hl hact haddress
    unfold Word.addressLimit at hrange
    exact .inr ⟨always, channel, threshold, g, address, by omega, hact, haddress, rfl⟩

/-- Two pulses with a pause between them that no WAIT can cover. -/
def Bench.distant : Sequence where
  name := "distant"
  length := 1200000000
  shots := 1
  variants := 1
  hardware
  controls := []
  channels := [
    ⟨"laser", [⟨"early", .absolute 14, .absolute 20⟩, ⟨"late", .absolute 1100000000, .absolute 1100000020⟩], .output⟩,
    Bench.detector]

theorem Bench.distant_overflows : distant.verify.outcome = .ok () ∧ ∃ f,
    (distant.compile 0 quick).outcome = .error (.fault f) ∧ f.kind = .fieldOverflow ∧
    ∃ k : Layout distant 0 quick, k.addressed.encode = .error f := by
  have hverify : distant.verify.outcome = .ok () := by decide +kernel
  have hover : ∃ f, (distant.compile 0 quick).outcome = .error (.fault f) ∧ f.kind = .fieldOverflow := by
    have hkind : (match (distant.compile 0 quick).outcome with
      | .error (.fault f) => decide (f.kind = .fieldOverflow)
      | _ => false) = true := by decide +kernel
    split at hkind
    · rename_i f hf
      exact ⟨f, hf, of_decide_eq_true hkind⟩
    · cases hkind
  obtain ⟨f, hf, hkind⟩ := hover
  obtain ⟨k, hk, -⟩ := (Sequence.overflow_cases hverify).2 f hf hkind
  exact ⟨hverify, f, hf, hkind, k, hk⟩

end PulseSequencer
