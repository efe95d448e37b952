import PulseSequencer.Proofs.Emission
import PulseSequencer.Proofs.Layout

/-!
# Where overflows come from

Of all stages of a compilation, only the encoding of words reports a field that does not fit.

* `Except.Spares`, `Attempt.Spares` : a computation that does not end in an overflow, with rules for chains and folds;
* `Draft.spares_mergeSets`, `Board.spares_place`, `Build.spares_emitAll` : the stages;
* `Layout.exists_of_overflow` : a compilation that overflows has gone through all stages up to the words.
-/

namespace PulseSequencer

variable {α β : Type}

/-! ## Chains -/

/-- The result is not an overflow. -/
structure Except.Spares (x : Except Fault α) : Prop where
  fault : ∀ f, x = .error f → f.kind ≠ .fieldOverflow

/-- The attempt does not end in an overflow. -/
structure Attempt.Spares (x : Attempt α) : Prop where
  fault : ∀ f, x.outcome = .error (.fault f) → f.kind ≠ .fieldOverflow

namespace Except

theorem spares_ok (a : α) : Spares (.ok a) := ⟨nofun⟩

theorem spares_error {f : Fault} (h : f.kind ≠ .fieldOverflow) : Spares (.error f : Except Fault α) :=
  ⟨fun _ hf => Except.error.inj hf ▸ h⟩

theorem Spares.bind {x : Except Fault α} {f : α → Except Fault β} (hx : Spares x) (hf : ∀ a, Spares (f a)) :
    Spares (x >>= f) := by
  cases x with
  | error e => exact spares_error (hx.fault e rfl)
  | ok a => exact hf a

theorem spares_mapM {f : α → Except Fault β} {xs : List α} (h : ∀ x, Spares (f x)) : Spares (xs.mapM f) := by
  refine ⟨fun e he => ?_⟩
  obtain ⟨x, -, hx⟩ := exists_of_mapM_eq_error he
  exact (h x).fault e hx

theorem spares_foldlM {f : α → β → Except Fault α} (h : ∀ a x, Spares (f a x)) : ∀ {xs : List β} {a : α},
    Spares (xs.foldlM f a)
  | [], _ => spares_ok _
  | _ :: _, _ => (h _ _).bind fun _ => spares_foldlM h

end Except

namespace Attempt

theorem spares_pure (a : α) : (pure a : Attempt α).Spares := ⟨nofun⟩

theorem spares_record (warnings : List Warning) : (record warnings).Spares := ⟨nofun⟩

theorem spares_fail {f : Fault} (h : f.kind ≠ .fieldOverflow) : (fail f : Attempt α).Spares :=
  ⟨fun _ hf => Failure.fault.inj (Except.error.inj hf) ▸ h⟩

theorem spares_ofExcept {x : Except Fault α} (h : Except.Spares x) : (ofExcept x).Spares := by
  cases x with
  | error f => exact spares_fail (h.fault f rfl)
  | ok a => exact spares_pure a

theorem Spares.bind {x : Attempt α} {f : α → Attempt β} (hx : x.Spares) (hf : ∀ a, (f a).Spares) :
    (x >>= f).Spares := by
  refine ⟨fun e he => ?_⟩
  rw [outcome_bind] at he
  cases hout : x.outcome with
  | error e' =>
    rw [hout] at he
    exact hx.fault e (hout.trans (congrArg _ (Except.error.inj he)))
  | ok a =>
    rw [hout] at he
    exact (hf a).fault e he

theorem spares_foldlM {f : α → β → Attempt α} (h : ∀ a x, (f a x).Spares) : ∀ {xs : List β} {a : α},
    (xs.foldlM f a).Spares
  | [], _ => spares_pure _
  | _ :: _, _ => (h _ _).bind fun _ => spares_foldlM h

theorem spares_mapM {f : α → Attempt β} (h : ∀ x, (f x).Spares) : ∀ {xs : List α}, (xs.mapM f).Spares
  | [] => spares_pure _
  | _ :: _ => by
    rw [List.mapM_cons]
    exact (h _).bind fun _ => (spares_mapM h).bind fun _ => spares_pure _

/-- An attempt that overflows has gone through its first part, if that spares. -/
theorem Spares.exists_ok {x : Attempt α} {f : α → Attempt β} {e : Fault} (hx : x.Spares)
    (h : (x >>= f).outcome = .error (.fault e)) (he : e.kind = .fieldOverflow) :
    ∃ a, x.outcome = .ok a ∧ (f a).outcome = .error (.fault e) := by
  cases hout : x.outcome with
  | error e' =>
    rw [outcome_bind, hout] at h
    exact absurd he (hx.fault e (hout.trans (congrArg _ (Except.error.inj h))))
  | ok a => exact ⟨a, rfl, (outcome_bind_of_ok hout).symm.trans h⟩

end Attempt

open PulseSequencer.Except (spares_ok spares_error)
open Attempt (spares_pure spares_fail spares_record spares_ofExcept)

/-! ## Times -/

namespace Timeline

variable (t : Timeline)

theorem spares_ofVariant (s : Sequence) (variant : Binary64) : Except.Spares (ofVariant s variant) := by
  refine (Except.spares_foldlM fun a c => ?_).bind fun _ => spares_ok _
  have hvalue : Except.Spares (c.valueAt variant s.variants) := by
    unfold ControlVariable.valueAt
    split
    · exact spares_ok _
    · exact spares_ok _
    · dsimp only
      split
      · exact spares_ok _
      · exact spares_error (ne_of_beq_false rfl)
  exact hvalue.bind fun _ => spares_ok _

theorem spares_valueOf (name owner : String) : Except.Spares (t.valueOf name owner) := by
  unfold valueOf
  split
  · exact spares_ok _
  · exact spares_error (ne_of_beq_false rfl)

theorem spares_timeFrom (fuel : Nat) (active : List Reference) (r : Reference) (owner : String) :
    Except.Spares (t.timeFrom fuel active r owner) := by
  fun_induction timeFrom t fuel active r owner with
  | case1 => exact t.spares_valueOf _ _
  | case2 | case3 | case4 => exact spares_error (ne_of_beq_false rfl)
  | case5 => exact spares_ok _
  | case6 => exact t.spares_valueOf _ _
  | case7 fuel active r owner _ _ base distance _ ih =>
    refine ih.bind fun _ => Except.Spares.bind ?_ fun _ => spares_ok _
    cases distance with
    | absolute value => exact spares_ok _
    | control name => exact t.spares_valueOf _ _

theorem spares_timeOf (r : Reference) (owner : String) : Except.Spares (t.timeOf r owner) := t.spares_timeFrom _ _ _ _

theorem spares_latest : Except.Spares t.latest :=
  Except.spares_foldlM fun _ _ => (Except.spares_foldlM fun _ _ => (t.spares_timeOf _ _).bind fun _ => spares_ok _).bind
    fun _ => Except.spares_foldlM fun _ _ => (t.spares_timeOf _ _).bind fun _ => spares_ok _

end Timeline

theorem Sequence.spares_ticks (t : Timeline) (o : Options) : (ticks t o).Spares := by
  unfold ticks
  simp only
  split
  · exact spares_pure _
  · refine (spares_ofExcept t.spares_latest).bind fun latest => ?_
    split
    · exact (spares_record _).bind fun _ => spares_pure _
    · exact spares_pure _

/-! ## Pulses and control writes -/

theorem Sequence.spares_pulseCounter (h : Hardware) (channel : String) : Except.Spares (pulseCounter h channel) := by
  unfold pulseCounter
  split
  · exact spares_ok _
  · exact spares_error (ne_of_beq_false rfl)

theorem Pulse.spares_ofChannel (t : Timeline) (terminator : Int) (c : Channel) : (ofChannel t terminator c).Spares := by
  have hline : Except.Spares (lineOf t.sequence.hardware c) := by
    unfold lineOf
    split
    · exact spares_ok _
    · refine Except.Spares.bind ?_ fun _ => spares_ok _
      unfold Sequence.outputLine
      split
      · exact spares_ok _
      · exact spares_error (ne_of_beq_false rfl)
    · exact (Sequence.spares_pulseCounter _ _).bind fun _ => spares_ok _
  refine (spares_ofExcept hline).bind fun line => ?_
  split
  · exact spares_pure _
  · refine (Attempt.spares_mapM fun w => ?_).bind fun _ => spares_pure _
    refine (spares_ofExcept (t.spares_timeOf _ _)).bind fun _ =>
      (spares_ofExcept (t.spares_timeOf _ _)).bind fun _ => ?_
    extract_lets finish rest
    have hrest : ∀ finish, (rest finish).Spares := fun finish => by
      unfold rest
      split
      · exact (spares_record _).bind fun _ => spares_pure _
      · exact spares_pure _
    split
    · exact (spares_record _).bind fun _ => (spares_pure _).bind hrest
    · exact (spares_pure _).bind hrest

theorem Board.spares_addSet (b : Board) (time value mask : Int) (block : Option String) (marker : Bool) :
    Except.Spares (b.addSet time value mask block marker) := by
  unfold addSet
  split
  · exact spares_ok _
  · exact spares_error (ne_of_beq_false rfl)

namespace Build

variable (f : Frame) (b : Build)

theorem spares_addSet (time value mask : Int) (block : Option String) (marker : Bool) :
    Except.Spares (b.addSet time value mask block marker) := (Board.spares_addSet ..).bind fun _ => spares_ok _

theorem spares_writeId (tick : Int) (block : Option String) : Except.Spares (b.writeId f tick block) := by
  refine Except.Spares.bind ?_ fun r => ?_
  · unfold newId
    simp only
    split
    · exact spares_error (ne_of_beq_false rfl)
    · exact spares_ok _
  · change Except.Spares (r.2.write f tick r.1 block)
    unfold write
    simp only
    split
    · exact spares_error (ne_of_beq_false rfl)
    · exact (spares_addSet ..).bind fun _ => (spares_addSet ..).bind fun _ => spares_ok _

theorem spares_begin : (Sequence.begin f b).Spares := by
  unfold Sequence.begin
  extract_lets rest
  have hrest : ∀ b, (rest b).Spares := fun b => spares_pure _
  split
  · exact (spares_ofExcept (spares_writeId ..)).bind fun _ => (spares_pure _).bind hrest
  · exact (spares_record _).bind fun _ => (spares_pure _).bind hrest

/-! ## Jumps -/

theorem spares_mergedLadder (j : Jump) : Except.Spares j.mergedLadder := by
  have hrules : Except.Spares j.rules := by
    unfold Jump.rules
    split
    · exact spares_ok _
    · exact spares_ok _
    · split
      · exact spares_ok _
      · exact spares_ok _
      · exact spares_error (ne_of_beq_false rfl)
  have hranges : ∀ cs, Except.Spares (CountRange.ofConditions j.name cs) := by
    intro cs
    induction cs with
    | nil => exact spares_ok _
    | cons c rest ih =>
      unfold CountRange.ofConditions
      split
      · exact ih
      · split
        · exact spares_error (ne_of_beq_false rfl)
        · exact ih.bind fun _ => spares_ok _
  have hdescend : ∀ otherwise ranges current, Except.Spares (Ladder.descend j.name otherwise current ranges) := by
    intro otherwise ranges
    induction ranges with
    | nil => exact fun _ => spares_ok _
    | cons range rest ih =>
      intro current
      unfold Ladder.descend
      split
      · exact spares_error (ne_of_beq_false rfl)
      · exact (ih _).bind fun _ => spares_ok _
  refine Except.Spares.bind ?_ fun _ => spares_ok _
  refine hrules.bind fun rules => (hranges _).bind fun ranges => ?_
  split
  · exact spares_error (ne_of_beq_false rfl)
  · exact hdescend _ _ _

theorem spares_settle (tick : Int) (moving : Slot) (placed : List (Int × Slot)) :
    (Slot.settle tick moving placed).Spares := by
  fun_induction Slot.settle tick moving placed with
  | case1 | case3 => exact spares_fail (ne_of_beq_false rfl)
  | case2 => exact spares_pure _
  | case4 tick moving placed hneg key other hfind hapart keep shift hpair ih =>
    refine (spares_record _).bind fun _ => ?_
    split
    · exact ih ‹_›
    · refine ⟨fun f hf => ?_⟩
      cases hf

theorem spares_slotsOf : (slotsOf f).Spares := by
  refine (spares_ofExcept (Except.spares_mapM fun e => ?_)).bind fun _ =>
    (Attempt.spares_foldlM fun _ _ => spares_settle _ _ _).bind fun _ => spares_pure _
  refine (Timeline.spares_timeOf _ _ _).bind fun _ => ?_
  extract_lets
  split
  · exact spares_error (ne_of_beq_false rfl)
  · exact (Sequence.spares_pulseCounter _ _).bind fun _ => spares_ok _

theorem spares_targetOf (slots : List Slot) (jump : String) (t : Target) : (targetOf f slots jump t b).Spares := by
  have hland : ∀ tick, Except.Spares (b.land f tick) := fun tick =>
    (spares_writeId ..).bind fun _ => (spares_addSet ..).bind fun _ => spares_ok _
  have htick : ∀ r, (destinationTick f slots jump r).Spares := by
    intro r
    unfold destinationTick
    extract_lets last moved rest
    have hrest : ∀ tick, (rest tick).Spares := fun tick => by
      unfold rest
      split
      · extract_lets
        exact (spares_record _).bind fun _ => spares_pure _
      · exact spares_pure _
    split
    · split
      · exact (spares_pure _).bind hrest
      · exact (spares_ofExcept (Timeline.spares_timeOf _ _ _)).bind fun _ => (spares_pure _).bind hrest
    · exact (spares_ofExcept (Timeline.spares_timeOf _ _ _)).bind fun _ => (spares_pure _).bind hrest
  cases t with
  | terminate => exact spares_pure _
  | destination r => exact (htick r).bind fun tick => spares_ofExcept (hland tick)
  | pass => exact spares_fail (ne_of_beq_false rfl)

theorem spares_emitRungs (slots : List Slot) (s : Slot) (marker : Option Label) (total : Nat) (rungs : Ladder) :
    ∀ (tick : Int) (b : Build), (emitRungs f slots s marker total tick rungs b).Spares := by
  induction rungs with
  | nil => exact fun _ _ => spares_pure _
  | cons r rest ih =>
    intro tick b
    unfold emitRungs
    split
    · exact spares_fail (ne_of_beq_false rfl)
    · extract_lets next
      have hnext : ∀ r, (next r).Spares := fun _ => ih _ _
      split
      · split
        · exact (spares_pure _).bind hnext
        · exact Attempt.Spares.bind (spares_fail (ne_of_beq_false rfl)) hnext
      · exact (spares_targetOf ..).bind hnext

theorem spares_emit (slots : List Slot) (s : Slot) : (emit f slots s b).Spares := by
  refine (spares_ofExcept (spares_mergedLadder _)).bind fun ladder => ?_
  split
  · exact spares_fail (ne_of_beq_false rfl)
  · split
    · split
      · exact (spares_record _).bind fun _ => spares_pure _
      · exact (spares_targetOf ..).bind fun _ => spares_pure _
    · extract_lets rungs next
      have hnext : ∀ r, (next r).Spares := fun _ => spares_emitRungs ..
      split
      · exact (spares_ofExcept (spares_writeId ..)).bind fun _ => (spares_pure _).bind hnext
      · exact (spares_pure _).bind hnext

theorem spares_emitAll : (emitAll f b).Spares :=
  (spares_slotsOf f).bind fun _ => Attempt.spares_foldlM fun _ _ => spares_emit ..

end Build

/-! ## Passes -/

namespace Board

variable (b : Board)

theorem spares_unite (m : Int) (sets : List Label) : (b.unite m sets).Spares := by
  have hblock : ∀ time ls block, Except.Spares (b.commonBlock time block ls) := by
    intro time ls
    induction ls with
    | nil => exact fun _ => spares_ok _
    | cons l rest ih =>
      intro block
      unfold commonBlock
      extract_lets
      split
      · exact spares_error (ne_of_beq_false rfl)
      · split
        · exact ih _
        · split
          · exact ih _
          · split <;> exact spares_error (ne_of_beq_false rfl)
  have hunion : ∀ time ds d, (unionDrive time m d ds).Spares := by
    intro time ds
    induction ds with
    | nil => exact fun _ => spares_pure _
    | cons e rest ih =>
      intro d
      unfold unionDrive
      extract_lets
      split
      · exact spares_fail (ne_of_beq_false rfl)
      · split
        · exact (spares_record _).bind fun _ => ih _
        · exact ih _
  cases sets with
  | nil => exact spares_fail (ne_of_beq_false rfl)
  | cons first rest =>
    exact (spares_ofExcept (hblock _ _ _)).bind fun _ => (hunion _ _ _).bind fun _ =>
      (spares_ofExcept (spares_addSet ..)).bind fun _ => spares_pure _

theorem spares_separate (xs : List Block) : (Block.separate b xs).Spares := by
  have hafter : ∀ (xs : List Block) previous (b : Board), (Block.separateAfter previous b xs).Spares := by
    intro xs
    induction xs with
    | nil => exact fun _ _ => spares_pure _
    | cons x rest ih =>
      intro previous b
      unfold Block.separateAfter
      split
      · exact (ih _ _).bind fun _ => spares_pure _
      · split
        · exact spares_fail (ne_of_beq_false rfl)
        · extract_lets
          exact (spares_record _).bind fun _ => (ih _ _).bind fun _ => spares_pure _
  cases xs with
  | nil => exact spares_pure _
  | cons x rest => exact (hafter _ _ _).bind fun _ => spares_pure _

theorem spares_placeMember (name : String) (t : TickLine) (l : Label) :
    Except.Spares (TickLine.placeMember name t b l) := by
  unfold TickLine.placeMember
  extract_lets
  split
  · exact spares_error (ne_of_beq_false rfl)
  · split
    · exact spares_error (ne_of_beq_false rfl)
    · exact spares_ok _

theorem spares_settle (origin : Label) (steps : Nat) : ∀ (v : TickLine.Traveller) (t : TickLine) (b : Board),
    (TickLine.settle origin steps v t b).Spares := by
  induction steps with
  | zero => exact fun _ _ _ => spares_fail (ne_of_beq_false rfl)
  | succ steps ih =>
    intro v t b
    unfold TickLine.settle
    split
    · exact spares_fail (ne_of_beq_false rfl)
    · split
      · extract_lets
        split
        · exact spares_fail (ne_of_beq_false rfl)
        · exact (spares_record _).bind fun _ => ih _ _ _
      · split
        · exact spares_pure _
        · extract_lets
          split
          · exact ih _ _ _
          · exact ih _ _ _

theorem spares_place [Collation] (length : Int) (labels : List Label) : (b.place length labels).Spares := by
  refine (spares_separate _ _).bind fun r => ?_
  simp only
  split
  · exact ⟨nofun⟩
  · exact (spares_ofExcept (Except.spares_foldlM fun _ _ => Except.spares_foldlM fun _ _ =>
      spares_placeMember ..)).bind fun _ =>
        (Attempt.spares_foldlM fun _ _ => spares_settle ..).bind fun _ => spares_pure _

end Board

namespace Draft

variable (d : Draft)

theorem spares_mergeSets (m : Int) : (d.mergeSets m).Spares := by
  refine (Attempt.spares_foldlM fun acc g => ?_).bind fun _ => spares_pure _
  unfold uniteGroup
  split
  · exact spares_pure _
  · exact (Board.spares_unite ..).bind fun _ => spares_pure _

theorem spares_inheritOutputs (mask : Int) : Except.Spares (d.inheritOutputs mask) := by
  unfold inheritOutputs
  extract_lets
  split
  · exact spares_ok _
  · extract_lets
    split
    · exact spares_error (ne_of_beq_false rfl)
    · exact spares_ok _

theorem spares_fillGaps : Except.Spares d.fillGaps := by
  refine Except.Spares.bind ?_ fun _ => spares_ok _
  suffices h : ∀ ls last held (b : Board), Except.Spares (fillFrom last held b ls) from h _ _ _ _
  intro ls
  induction ls with
  | nil => exact fun _ _ _ => spares_ok _
  | cons l rest ih =>
    intro last held b
    unfold fillFrom
    extract_lets
    split
    · exact spares_error (ne_of_beq_false rfl)
    split
    · exact (ih _ _ _).bind fun _ => spares_ok _
    split
    · split
      · exact spares_error (ne_of_beq_false rfl)
      · exact (Board.spares_addSet ..).bind fun _ => (ih _ _ _).bind fun _ => spares_ok _
    · exact (ih _ _ _).bind fun _ => spares_ok _

theorem spares_assignAddresses : Except.Spares d.assignAddresses := by
  refine Except.Spares.bind ?_ fun _ => spares_ok _
  suffices h : ∀ ls last next (b : Board), Except.Spares (addressFrom last next b ls) from h _ _ _ _
  intro ls
  induction ls with
  | nil => exact fun _ _ _ => spares_ok _
  | cons l rest ih =>
    intro last next b
    unfold addressFrom
    extract_lets
    split
    · exact spares_error (ne_of_beq_false rfl)
    · exact ih _ _ _

theorem spares_complete [Collation] (controlMask outputMask length : Int) :
    (d.complete controlMask outputMask length).Spares := by
  refine (spares_mergeSets ..).bind fun _ => (spares_ofExcept (spares_inheritOutputs ..)).bind fun _ => ?_
  refine (spares_mergeSets ..).bind fun _ => ((Board.spares_place ..).bind fun _ => spares_pure _).bind fun _ => ?_
  refine (spares_ofExcept (spares_inheritOutputs ..)).bind fun _ =>
    (spares_ofExcept (spares_fillGaps _)).bind fun _ => ?_
  refine (spares_mergeSets ..).bind fun _ => ?_
  simp only
  split
  · exact spares_fail (ne_of_beq_false rfl)
  · exact spares_pure _

end Draft

theorem Sequence.spares_draft (t : Timeline) (o : Options) (length : Int) : (draft t o length).Spares := by
  refine (Build.spares_begin ..).bind fun b => (Attempt.spares_mapM fun _ => Pulse.spares_ofChannel ..).bind fun _ => ?_
  refine (spares_ofExcept (Except.spares_foldlM fun _ _ => ?_)).bind fun _ =>
    (Draft.spares_mergeSets ..).bind fun _ => ?_
  · exact (Board.spares_addSet ..).bind fun _ => (Board.spares_addSet ..).bind fun _ => spares_ok _
  · refine (Build.spares_emitAll ..).bind fun _ => (Draft.spares_mergeSets ..).bind fun _ => ?_
    exact (spares_ofExcept (Board.spares_addSet ..)).bind fun _ => spares_pure _

/-- A compilation that overflows has all stages up to the words, which do not fit. -/
theorem Layout.exists_of_overflow [Collation] {s : Sequence} {variant : Binary64} {o : Options} {f : Fault}
    (hverify : s.verify.outcome = .ok ()) (h : (s.compile variant o).outcome = .error (.fault f))
    (hf : f.kind = .fieldOverflow) : ∃ k : Layout s variant o, k.addressed.encode = .error f := by
  have hassemble : (s.assemble variant o).outcome = .error (.fault f) :=
    (Attempt.outcome_bind_of_ok hverify).symm.trans h
  unfold Sequence.assemble at hassemble
  simp only at hassemble
  split at hassemble
  · cases hassemble
    cases hf
  rename_i hvariant
  obtain ⟨t, ht, h⟩ := (spares_ofExcept (Timeline.spares_ofVariant _ _)).exists_ok hassemble hf
  obtain ⟨length, hlength, h⟩ := (Sequence.spares_ticks _ _).exists_ok h hf
  split at h
  · cases h
    cases hf
  rename_i htwo
  obtain ⟨⟨fr, started⟩, hdraft, h⟩ := (Sequence.spares_draft _ _ _).exists_ok h hf
  obtain ⟨final, hcomplete, h⟩ := (Draft.spares_complete _ _ _ _).exists_ok h hf
  obtain ⟨addressed, haddressed, h⟩ := (spares_ofExcept (Draft.spares_assignAddresses _)).exists_ok h hf
  obtain ⟨k, rfl⟩ := exists_of_stages hverify hvariant (Attempt.ofExcept_eq_ok.1 ht) hlength htwo hdraft hcomplete
    (Attempt.ofExcept_eq_ok.1 haddressed)
  refine ⟨k, ?_⟩
  cases hwords : k.addressed.encode with
  | error e =>
    rw [hwords] at h
    cases h
    rfl
  | ok words =>
    rw [hwords] at h
    cases h

end PulseSequencer
