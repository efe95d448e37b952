import PulseSequencer.Proofs.Ladder
import PulseSequencer.Proofs.MirroredEmission
import PulseSequencer.Proofs.SlotOrder

/-!
# Jumps in another order

* `Jump.Reorders.mergedLadder_eq` : the ladder of a branch does not depend on the order of its conditions;
* `Build.exists_slotsOf` : the jumps of a reordered sequence take the same ticks;
* `Frame.mirrored_of_reorders` : and lead to the same instructions.
-/

namespace PulseSequencer

/-! ## Ladders -/

namespace CountRange

/-- The range of a condition, if it has one that can be used. -/
def ofCondition? (c : Condition) : Option CountRange := c.range?.bind fun p => ofBounds? p.1 p.2 c.target

theorem ofConditions_eq_ok {jump : String} {cs : List Condition} : ∀ {ranges : List CountRange},
    ofConditions jump cs = .ok ranges ↔
      (∀ c ∈ cs, c.range?.isSome = true → (ofCondition? c).isSome = true) ∧ ranges = cs.filterMap ofCondition? := by
  induction cs with
  | nil =>
    intro ranges
    constructor
    · rintro ⟨⟩
      exact ⟨by simp, rfl⟩
    · rintro ⟨-, rfl⟩
      rfl
  | cons c cs ih =>
    intro ranges
    unfold ofConditions
    cases hrange : c.range? with
    | none =>
      have hnone : ofCondition? c = none := by rw [ofCondition?, hrange]; rfl
      simp only [ih, List.forall_mem_cons, hrange, Option.isSome_none, Bool.false_eq_true, false_imp_iff, true_and,
        List.filterMap_cons, hnone]
    | some p =>
      have hsome : ofCondition? c = ofBounds? p.1 p.2 c.target := by rw [ofCondition?, hrange]; rfl
      cases hbounds : ofBounds? p.1 p.2 c.target with
      | none =>
        simp [hrange, hsome, hbounds]
      | some range =>
        simp only [hbounds, Except.bind_eq_ok, Except.pure_eq_ok, ih, List.forall_mem_cons, hrange, hsome,
          Option.isSome_some, forall_const, true_and, List.filterMap_cons]
        constructor
        · rintro ⟨rest, ⟨hall, rfl⟩, rfl⟩
          exact ⟨hall, rfl⟩
        · rintro ⟨hall, rfl⟩
          exact ⟨_, ⟨hall, rfl⟩, rfl⟩

theorem ofConditions_perm {jump : String} {cs cs' : List Condition} {ranges : List CountRange} (h : cs'.Perm cs)
    (hok : ofConditions jump cs = .ok ranges) :
    ∃ ranges', ofConditions jump cs' = .ok ranges' ∧ ranges'.Perm ranges := by
  obtain ⟨hall, rfl⟩ := ofConditions_eq_ok.1 hok
  exact ⟨_, ofConditions_eq_ok.2 ⟨fun c hc => hall c (h.mem_iff.1 hc), rfl⟩, h.filterMap _⟩

end CountRange

/-- Ranges that are not empty and do not overlap have different stops. -/
theorem Ladder.stops_of_descend {jump : String} {otherwise : Target} {ranges : List CountRange} :
    ∀ {current : Nat} {l : Ladder}, (∀ r ∈ ranges, r.start < r.stop) → descend jump otherwise current ranges = .ok l →
      (∀ r ∈ ranges, r.stop ≤ current) ∧ ranges.Pairwise fun a b => b.stop < a.stop := by
  induction ranges with
  | nil => exact fun _ _ => ⟨by simp, .nil⟩
  | cons range rest ih =>
    intro current l hranges h
    obtain ⟨hle, below, hbelow, -⟩ := descend_cons_eq_ok.1 h
    obtain ⟨hstop, hpair⟩ := ih (fun r hr => hranges r (List.mem_cons_of_mem _ hr)) hbelow
    have hrange := hranges range List.mem_cons_self
    refine ⟨List.forall_mem_cons.2 ⟨by omega, fun r hr => ?_⟩, List.pairwise_cons.2 ⟨fun r hr => ?_, hpair⟩⟩
    all_goals
      have := hstop r hr
      omega

namespace Jump.Reorders

variable {j j' : Jump} (h : j.Reorders j')

include h

/-- The conditions are the same, in some order, with one `otherwise` among them. -/
theorem rules {rules : List Condition} (hok : j.rules = .ok rules) :
    ∃ rules', j'.rules = .ok rules' ∧ rules'.Perm rules ∧ rules.countP Condition.isOtherwise = 1 := by
  have haction := h.action
  unfold Jump.rules at hok ⊢
  generalize j.action = a at haction hok
  generalize j'.action = a' at haction ⊢
  cases haction with
  | goto destination =>
    cases hok
    exact ⟨_, rfl, .refl _, rfl⟩
  | terminate =>
    cases hok
    exact ⟨_, rfl, .refl _, rfl⟩
  | branch window hperm =>
    simp only at hok ⊢
    rw [hperm.countP_eq]
    split at hok
    · rename_i hzero
      cases hok
      refine ⟨_, rfl, hperm.append_right _, ?_⟩
      rw [List.countP_append, hzero]
      rfl
    · rename_i hone
      cases hok
      exact ⟨_, rfl, hperm, hone⟩
    · cases hok

/-- The ladder of a branch does not depend on the order of its conditions. -/
theorem mergedLadder_eq {ladder : Ladder} (hok : j.mergedLadder = .ok ladder) : j'.mergedLadder = .ok ladder := by
  obtain ⟨raw, hraw, hmerge⟩ := Except.bind_eq_ok.1 hok
  refine Except.bind_eq_ok.2 ⟨raw, ?_, hmerge⟩
  obtain ⟨rules, hrules, hraw⟩ := Except.bind_eq_ok.1 hraw
  obtain ⟨ranges, hranges, hraw⟩ := Except.bind_eq_ok.1 hraw
  obtain ⟨rules', hrules', hperm, hone⟩ := h.rules hrules
  obtain ⟨ranges', hranges', hrperm⟩ := CountRange.ofConditions_perm hperm hranges
  refine Except.bind_eq_ok.2 ⟨rules', hrules', Except.bind_eq_ok.2 ⟨ranges', by rw [h.name]; exact hranges', ?_⟩⟩
  have hother : rules'.reverse.find? Condition.isOtherwise = rules.reverse.find? Condition.isOtherwise := by
    obtain ⟨o, ho⟩ := List.length_eq_one_iff.1 (List.countP_eq_length_filter.symm.trans hone)
    have ho' : rules'.filter Condition.isOtherwise = [o] := List.perm_singleton.1 (ho ▸ hperm.filter _)
    rw [← List.head?_filter, ← List.head?_filter, List.filter_reverse, List.filter_reverse, ho, ho']
  rw [hother]
  split at hraw
  · cases hraw
  rename_i otherwise hfind
  have hstops := (Ladder.stops_of_descend (fun r hr => (CountRange.start_lt_stop_of_ofConditions hranges r
    (Sort.mem_sortBy.1 hr)).1) hraw).2
  have hsorted : Sort.sortBy (fun a b : CountRange => decide (b.stop ≤ a.stop)) ranges' =
      Sort.sortBy (fun a b : CountRange => decide (b.stop ≤ a.stop)) ranges := by
    refine Sort.sortBy_perm (fun a b => by simp only [decide_eq_true_eq]; omega)
      (fun a b c => by simp only [decide_eq_true_eq]; omega) hrperm fun a ha b hb hab hba => ?_
    rw [decide_eq_true_eq] at hab hba
    have hsymm : Std.Symm fun x y : CountRange => x.stop ≠ y.stop := ⟨fun _ _ h => h.symm⟩
    by_contra hne
    exact (hstops.imp fun hlt => hlt.ne').forall (Sort.mem_sortBy.2 ha) (Sort.mem_sortBy.2 hb) hne (by omega)
  rw [hsorted, h.name]
  exact hraw

end Jump.Reorders

/-! ## Slots -/

/-- What is found for the members of one list is found for those of the other one. -/
theorem Rearranged.lift {α β γ δ : Type} {R : α → β → Prop} {P : α → γ → Prop} {Q : β → δ → Prop} {T : γ → δ → Prop}
    {xs : List α} {ys : List β} {zs : List γ} (h : Rearranged R xs ys) (hzs : List.Forall₂ P xs zs)
    (hone : ∀ x y z, R x y → P x z → ∃ w, Q y w ∧ T z w) : ∃ ws, List.Forall₂ Q ys ws ∧ Rearranged T zs ws := by
  obtain ⟨mid, hperm, hall⟩ := h
  obtain ⟨mid', hmid, hzs'⟩ := List.perm_comp_forall₂ hperm hzs
  have hws : ∃ ws, List.Forall₂ Q ys ws ∧ List.Forall₂ T mid' ws := by
    clear hperm hzs'
    induction hall generalizing mid' with
    | nil =>
      cases hmid
      exact ⟨[], .nil, .nil⟩
    | cons hxy _ ih =>
      cases hmid with
      | cons hz hrest =>
        obtain ⟨w, hw, hzw⟩ := hone _ _ _ hxy hz
        obtain ⟨ws, hws, hrest'⟩ := ih _ hrest
        exact ⟨w :: ws, .cons hw hws, .cons hzw hrest'⟩
  obtain ⟨ws, hQ, hT⟩ := hws
  exact ⟨ws, hQ, mid', hzs', hT⟩

/-- Lists that correspond, sorted by unique keys, correspond one by one. -/
theorem Rearranged.sortBy {α β : Type} {R : α → β → Prop} {xs : List α} {ys : List β} {key : α → Int} {key' : β → Int}
    (h : Rearranged R xs ys) (hkey : ∀ x y, R x y → key' y = key x) (hnodup : (xs.map key).Nodup) :
    List.Forall₂ R (Sort.sortBy (fun a b => decide (key a ≤ key b)) xs)
      (Sort.sortBy (fun a b => decide (key' a ≤ key' b)) ys) := by
  obtain ⟨mid, hperm, hall⟩ := h
  have hmid : Sort.sortBy (fun a b => decide (key a ≤ key b)) xs =
      Sort.sortBy (fun a b => decide (key a ≤ key b)) mid := by
    refine (Sort.sortBy_perm (fun a b => by simp only [decide_eq_true_eq]; omega)
      (fun a b c => by simp only [decide_eq_true_eq]; omega) hperm fun a ha b hb hab hba => ?_).symm
    rw [decide_eq_true_eq] at hab hba
    exact List.inj_on_of_nodup_map hnodup ha hb (by omega)
  rw [hmid]
  clear hmid hperm
  have hinsert : ∀ {x : α} {y : β} {as : List α} {bs : List β}, R x y → List.Forall₂ R as bs →
      List.Forall₂ R (Sort.insertBy (fun a b => decide (key a ≤ key b)) x as)
        (Sort.insertBy (fun a b => decide (key' a ≤ key' b)) y bs) := by
    intro x y as bs hxy hab
    induction hab with
    | nil => exact .cons hxy .nil
    | @cons a b as bs hR hrest ih =>
      unfold Sort.insertBy
      rw [hkey x y hxy, hkey a b hR]
      split
      · exact .cons hxy (.cons hR hrest)
      · exact .cons hR ih
  induction hall with
  | nil => exact .nil
  | cons hxy _ ih => exact hinsert hxy ih

namespace Build

variable {f f' : Frame} (h : f.sequence.Reorders f'.sequence) (hverify : f.sequence.verify.outcome = .ok ())
  (hvalues : f'.timeline.values = f.timeline.values) (hlength : f'.length = f.length)

include h in
theorem tickOf_of_reorders (time : Binary64) : f'.tickOf time = f.tickOf time := by
  rw [Frame.tickOf, Frame.tickOf, h.hardware]

include h hverify hvalues in
theorem timeOf_of_reorders (r : Reference) (owner : String) :
    f'.timeline.timeOf r owner = f.timeline.timeOf r owner := by
  have htimeline : f'.timeline = f.timeline.over f'.sequence := by
    rw [Timeline.over, ← hvalues]
    rfl
  rw [htimeline]
  exact Timeline.timeOf_over h hverify r owner

include h hverify hvalues hlength

theorem slotOf_of_reorders {e e' : Jump × Channel} (hjump : e.1.Reorders e'.1) (hname : e'.2.name = e.2.name)
    {sl : Slot} (hok : slotOf f e.1 e.2 = .ok sl) : ∃ sl', slotOf f' e'.1 e'.2 = .ok sl' ∧ sl.Twin sl' := by
  obtain ⟨time, htime, hok⟩ := Except.bind_eq_ok.1 hok
  simp only at hok
  split at hok
  · cases hok
  rename_i hlate
  obtain ⟨p, hp, hok⟩ := Except.bind_eq_ok.1 hok
  cases hok
  have hterminator : f'.terminator = f.terminator := by rw [Frame.terminator, Frame.terminator, hlength]
  refine ⟨⟨e'.1, p.channel, time, f.tickOf time⟩, Except.bind_eq_ok.2 ⟨time, ?_, ?_⟩, hjump, rfl, rfl, rfl⟩
  · rw [hjump.name]
    exact (timeOf_of_reorders h hverify hvalues _ _).trans htime
  · simp only [tickOf_of_reorders h, hterminator]
    rw [if_neg hlate]
    refine Except.bind_eq_ok.2 ⟨p, ?_, rfl⟩
    rw [h.hardware, hname]
    exact hp

/-- The jumps of a reordered sequence take the same ticks. -/
theorem exists_slotsOf {slots : List Slot}
    (hapart : ∀ {raw : List Slot}, List.Forall₂ (fun e s => slotOf f e.1 e.2 = .ok s) f.sequence.jumps raw →
      (raw.map Slot.time).Pairwise fun x y => x < y ∨ y < x) (hlimit : f.terminator ≤ Binary64.significandLimit)
    (hok : (slotsOf f).outcome = .ok slots) :
    ∃ slots', (slotsOf f').outcome = .ok slots' ∧ Rearranged Slot.Twin slots slots' := by
  obtain ⟨raw, hall, hassign⟩ := slotsOf_eq_ok.1 hok
  obtain ⟨raw', hall', htwins⟩ := h.jumps.lift hall fun e e' sl hee hsl =>
    slotOf_of_reorders h hverify hvalues hlength hee.1 hee.2 hsl
  have htick : ∀ s ∈ raw, s.tick = f.tickOf s.time := fun s hs => by
    obtain ⟨e, -, he⟩ := forall₂_exists_left hall hs
    obtain ⟨time, -, he⟩ := Except.bind_eq_ok.1 he
    simp only at he
    split at he
    · cases he
    · obtain ⟨p, -, he⟩ := Except.bind_eq_ok.1 he
      cases he
      rfl
  have hbound : ∀ s ∈ raw, s.tick ≤ Binary64.significandLimit := fun s hs => by
    obtain ⟨e, -, he⟩ := forall₂_exists_left hall hs
    exact (tick_of_slotOf he).le.trans hlimit
  obtain ⟨slots', hassign', hslots⟩ := Slot.exists_twins htwins htick hbound (hapart hall) hassign
  exact ⟨slots', slotsOf_eq_ok.2 ⟨raw', hall', hassign'⟩, hslots⟩

omit hlength in
theorem rawTick_of_reorders {slots slots' : List Slot} (hslots : Rearranged Slot.Twin slots slots')
    (hnames : (slots.map fun s => s.jump.name).Nodup) (jump : String) (r : Reference) :
    rawTick f' slots' jump r = rawTick f slots jump r := by
  have htick : f'.tickOf = f.tickOf := funext (tickOf_of_reorders h)
  have htime := timeOf_of_reorders h hverify hvalues
  cases r with
  | jump name =>
    have hfind := hslots.find? (f := fun s => s.jump.name) (g := fun s => s.jump.name)
      (fun s s' htwin => htwin.jump.name) hnames name
    have hjump : f'.timeline.jumpTime name = f.timeline.jumpTime name := htime _ _
    unfold rawTick
    simp only [htick, hjump]
    generalize slots.find? (fun s => s.jump.name == name) = a at hfind ⊢
    generalize slots'.find? (fun s => s.jump.name == name) = b at hfind ⊢
    cases hfind with
    | none => rfl
    | some htwin => exact congrArg Except.ok htwin.tick
  | start | finish | control =>
    unfold rawTick
    simp only [htick, htime]

end Build

theorem Slot.Twin.mirrored {s s' : Slot} (h : s.Twin s') : s.Mirrored s' :=
  ⟨h.jump.name, h.tick, h.channel, fun _ hladder => h.jump.mergedLadder_eq hladder⟩

/-- Reordered frames lead to the same jumps. -/
theorem Frame.mirrored_of_reorders {f f' : Frame} {φ : Label → Label} {S : Set Label} {slots slots' : List Slot}
    (h : f.sequence.Reorders f'.sequence) (hverify : f.sequence.verify.outcome = .ok ())
    (hvalues : f'.timeline.values = f.timeline.values) (hlength : f'.length = f.length)
    (hoptions : f'.options = f.options) (hpulses : f'.pulses.Perm f.pulses) (hslots : Rearranged Slot.Twin slots slots')
    (hnames : (slots.map fun s => s.jump.name).Nodup) (hfinal : f.final ∈ S ∧ f'.final = φ f.final) :
    f.Mirrored φ S slots slots' f' where
  register := by rw [Frame.register, Frame.register, h.hardware]
  highTime := by rw [Frame.highTime, Frame.highTime, hoptions]
  conditions := by rw [hoptions]
  state tick := by
    refine (hpulses.filter _).foldl_eq' (fun p _ q _ z => ?_) 0
    refine congrArg BitVec.toInt ?_
    rw [Bits.bits_or, Bits.bits_or, BitVec.or_assoc, BitVec.or_comm (Bits.bits (Bits.single p.line)), BitVec.or_assoc]
  terminator := by rw [Frame.terminator, Frame.terminator, hlength]
  final := hfinal
  destination := by
    intro jump r tick hok _
    obtain ⟨raw, hraw, htick⟩ := Build.destinationTick_eq_ok.1 hok
    refine Build.destinationTick_eq_ok.2 ⟨raw, ?_, ?_⟩
    · rw [Build.rawTick_of_reorders h hverify hvalues hslots hnames]
      exact hraw
    · rw [htick, Frame.terminator, Frame.terminator, hlength]

end PulseSequencer
