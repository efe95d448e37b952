import PulseSequencer.Proofs.Faults
import PulseSequencer.Proofs.Ladder
import PulseSequencer.Sequence.Check

/-!
# Faults of the checks

No check of a description ends in a fault of the compiler itself.

* `Jump.clean_ladder` : the conditions of a jump always hold an `otherwise`, so its ladder is a ladder or a fault of the
  description;
* `Timeline.clean_timeOf`, `Tree.clean_build` : times and reachability trees;
* `Sequence.clean_verify` : all checks together.
-/

open PulseSequencer.Except (Clean Clean.bind meets_error clean_pure clean_forM clean_mapM clean_foldlM clean_filterMapM
  clean_flatMapM)

namespace PulseSequencer

theorem Sequence.clean_require (condition : Bool) {f : Fault} (h : f.kind ≠ .internal) :
    Clean (require condition f) := by
  unfold require
  split
  · exact clean_pure ()
  · exact meets_error h

/-! ## Hardware -/

namespace Hardware

theorem clean_checkRange (what subject : String) (limit : Nat) (channel : Binary64) :
    Clean (checkRange what subject limit channel) := by
  unfold checkRange
  split
  · exact clean_pure ()
  · exact meets_error (ne_of_beq_false rfl)

theorem clean_checkUnique {κ : Type} (same : κ → κ → Bool) (text : κ → String) (what : String)
    (entries : List (κ × String)) : ∀ seen, Clean (checkUnique same text what seen entries) := by
  induction entries with
  | nil => exact fun _ => clean_pure ()
  | cons e rest ih =>
    intro seen
    unfold checkUnique
    split
    · exact meets_error (ne_of_beq_false rfl)
    · exact ih _

theorem clean_checkRanges (h : Hardware) : Clean h.checkRanges := by
  refine Clean.bind (clean_forM fun _ _ => clean_checkRange _ _ _ _) fun _ _ => ?_
  refine Clean.bind (clean_forM fun _ _ => clean_checkRange _ _ _ _) fun _ _ => ?_
  exact clean_forM fun _ _ => Clean.bind (clean_checkRange _ _ _ _) fun _ _ => clean_checkRange _ _ _ _

theorem clean_checkDuplicates (h : Hardware) : Clean h.checkDuplicates := by
  refine Clean.bind (clean_checkUnique _ _ _ _ _) fun _ _ => ?_
  refine Clean.bind (clean_checkUnique _ _ _ _ _) fun _ _ => ?_
  refine Clean.bind (clean_checkUnique _ _ _ _ _) fun _ _ => ?_
  exact Clean.bind (clean_checkUnique _ _ _ _ _) fun _ _ => clean_checkUnique _ _ _ _ _

theorem clean_checkRegister (h : Hardware) : Clean h.checkRegister := by
  refine Clean.bind (clean_forM fun i _ => ?_) fun _ _ => ?_
  · split
    · exact clean_pure ()
    · exact meets_error (ne_of_beq_false rfl)
  refine Clean.bind (clean_checkUnique _ _ _ _ _) fun _ _ => ?_
  refine Clean.bind (clean_checkUnique _ _ _ _ _) fun _ _ => ?_
  refine Clean.bind (clean_checkUnique _ _ _ _ _) fun _ _ => ?_
  exact clean_forM fun _ _ => Clean.bind (clean_checkRange _ _ _ _) fun _ _ => clean_checkRange _ _ _ _

theorem clean_checkSharing (h : Hardware) : Clean h.checkSharing := by
  refine Clean.bind (clean_forM fun o _ => ?_) fun _ _ => ?_
  · cases holds (h.register.map RegisterBit.output) o.channel with
    | true => exact meets_error (ne_of_beq_false rfl)
    | false =>
      cases holds (h.counters.map PulseCounter.gate) o.channel with
      | true => exact meets_error (ne_of_beq_false rfl)
      | false => exact clean_pure ()
  refine Clean.bind (clean_forM fun c _ => ?_) fun _ _ => ?_
  · split
    · exact meets_error (ne_of_beq_false rfl)
    · exact clean_pure ()
  refine clean_forM fun i _ => ?_
  split
  · exact meets_error (ne_of_beq_false rfl)
  · exact clean_pure ()

theorem clean_check (h : Hardware) : Clean h.check := by
  unfold check
  split
  · exact meets_error (ne_of_beq_false rfl)
  refine Clean.bind h.clean_checkRanges fun _ _ => ?_
  refine Clean.bind h.clean_checkDuplicates fun _ _ => ?_
  exact Clean.bind h.clean_checkRegister fun _ _ => h.clean_checkSharing

end Hardware

/-! ## Variables and names -/

theorem ControlVariable.clean_valueAt (c : ControlVariable) (variant variants : Binary64) :
    Clean (c.valueAt variant variants) := by
  unfold valueAt
  split
  · exact clean_pure _
  · exact clean_pure _
  · dsimp only
    split
    · exact clean_pure _
    · exact meets_error (ne_of_beq_false rfl)

theorem ControlVariable.clean_check (c : ControlVariable) (variants : Binary64) : Clean (c.check variants) := by
  unfold check
  split
  · exact meets_error (ne_of_beq_false rfl)
  split
  · exact meets_error (ne_of_beq_false rfl)
  · exact clean_forM fun _ _ => Clean.bind (c.clean_valueAt _ _) fun _ _ => clean_pure _

theorem Valuation.clean_ofVariables (controls : List ControlVariable) (variant variants : Binary64) :
    Clean (ofVariables controls variant variants) :=
  clean_foldlM (fun c _ _ => Clean.bind (c.clean_valueAt _ _) fun _ _ => clean_pure _) _

namespace Sequence

theorem clean_checkCounts (s : Sequence) : Clean s.checkCounts := by
  refine Clean.bind (clean_require _ (ne_of_beq_false rfl)) fun _ _ => ?_
  exact Clean.bind (clean_require _ (ne_of_beq_false rfl)) fun _ _ => clean_require _ (ne_of_beq_false rfl)

theorem clean_checkVariablesFrom (variants : Binary64) (controls : List ControlVariable) :
    ∀ seen, Clean (checkVariablesFrom variants seen controls) := by
  induction controls with
  | nil => exact fun _ => clean_pure ()
  | cons c rest ih =>
    intro seen
    refine Clean.bind (clean_require _ (ne_of_beq_false rfl)) fun _ _ => ?_
    exact Clean.bind (c.clean_check variants) fun _ _ => ih _

theorem clean_claimNames (what title : String) (names : List String) :
    ∀ used, Clean (claimNames what title used names) := by
  induction names with
  | nil => exact fun _ => clean_pure _
  | cons name rest ih =>
    intro used
    refine Clean.bind (clean_require _ (ne_of_beq_false rfl)) fun _ _ => ?_
    exact Clean.bind (clean_require _ (ne_of_beq_false rfl)) fun _ _ => ih _

theorem clean_checkNames (s : Sequence) : Clean s.checkNames := by
  refine Clean.bind (clean_foldlM (fun c _ used => ?_) _) fun used _ => ?_
  · refine Clean.bind (clean_require _ (ne_of_beq_false rfl)) fun _ _ => ?_
    refine Clean.bind (clean_claimNames _ _ _ _) fun _ _ => ?_
    exact Clean.bind (clean_claimNames _ _ _ _) fun _ _ => clean_pure _
  · exact clean_forM fun _ _ => clean_require _ (ne_of_beq_false rfl)

theorem clean_outputLine (h : Hardware) (channel : String) : Clean (outputLine h channel) := by
  unfold outputLine
  split
  · exact clean_pure _
  · exact meets_error (ne_of_beq_false rfl)

theorem clean_inputLine (h : Hardware) (channel : String) : Clean (inputLine h channel) := by
  unfold inputLine
  split
  · exact clean_pure _
  · exact meets_error (ne_of_beq_false rfl)

theorem clean_pulseCounter (h : Hardware) (channel : String) : Clean (pulseCounter h channel) := by
  unfold pulseCounter
  split
  · exact clean_pure _
  · exact meets_error (ne_of_beq_false rfl)

theorem clean_checkChannel (s : Sequence) (c : Channel) : Clean (s.checkChannel c) := by
  unfold checkChannel
  split
  · exact Clean.bind (clean_outputLine _ _) fun _ _ => clean_pure _
  · exact Clean.bind (clean_inputLine _ _) fun _ _ => clean_pure _
  · exact Clean.bind (clean_pulseCounter _ _) fun _ _ => clean_pure _

end Sequence

/-! ## Jumps -/

namespace Jump

theorem clean_rules (j : Jump) : Clean j.rules := by
  unfold rules
  split
  · exact clean_pure _
  · exact clean_pure _
  · split
    · exact clean_pure _
    · exact clean_pure _
    · exact meets_error (ne_of_beq_false rfl)

/-- The rules of a jump have an `otherwise`. -/
theorem exists_otherwise {j : Jump} {rules : List Condition} (h : j.rules = .ok rules) :
    ∃ c ∈ rules, c.isOtherwise = true := by
  unfold Jump.rules at h
  split at h
  · cases h
    exact ⟨_, List.mem_singleton_self _, rfl⟩
  · cases h
    exact ⟨_, List.mem_singleton_self _, rfl⟩
  · split at h
    · cases h
      exact ⟨_, List.mem_append_right _ (List.mem_singleton_self _), rfl⟩
    · rename_i hone
      cases h
      exact List.countP_pos_iff.1 (hone.symm ▸ Nat.one_pos)
    · cases h

theorem clean_ofConditions (jump : String) (cs : List Condition) : Clean (CountRange.ofConditions jump cs) := by
  induction cs with
  | nil => exact clean_pure _
  | cons c rest ih =>
    unfold CountRange.ofConditions
    split
    · exact ih
    · split
      · exact meets_error (ne_of_beq_false rfl)
      · exact Clean.bind ih fun _ _ => clean_pure _

theorem clean_descend (jump : String) (otherwise : Target) (ranges : List CountRange) :
    ∀ current, Clean (Ladder.descend jump otherwise current ranges) := by
  induction ranges with
  | nil => exact fun _ => clean_pure _
  | cons range rest ih =>
    intro current
    unfold Ladder.descend
    split
    · exact meets_error (ne_of_beq_false rfl)
    · exact Clean.bind (ih _) fun _ _ => clean_pure _

theorem clean_ladder (j : Jump) : Clean j.ladder := by
  refine Clean.bind j.clean_rules fun rules hrules => ?_
  refine Clean.bind (clean_ofConditions _ _) fun ranges _ => ?_
  obtain ⟨c, hc, hother⟩ := exists_otherwise hrules
  split
  · rename_i hnone
    exact absurd hother (List.find?_eq_none.1 hnone c (List.mem_reverse.2 hc))
  · exact clean_descend _ _ _ _

theorem clean_mergedLadder (j : Jump) : Clean j.mergedLadder := Clean.bind j.clean_ladder fun _ _ => clean_pure _

end Jump

namespace Sequence

theorem clean_checkDestination (s : Sequence) (jump : String) (r : Reference) : Clean (s.checkDestination jump r) := by
  cases r with
  | control name => exact meets_error (ne_of_beq_false rfl)
  | start window => exact clean_require _ (ne_of_beq_false rfl)
  | finish window => exact clean_require _ (ne_of_beq_false rfl)
  | jump name =>
    simp only [checkDestination]
    split
    · exact meets_error (ne_of_beq_false rfl)
    · exact clean_require _ (ne_of_beq_false rfl)

theorem clean_checkJump (s : Sequence) (j : Jump) (c : Channel) : (s.checkJump j c).Clean := by
  unfold checkJump
  extract_lets rest
  have hrest : ∀ u, (rest u).Clean := by
    intro u
    refine Attempt.Clean.bind (Attempt.meets_ofExcept j.clean_rules) fun rules _ => ?_
    refine Attempt.Clean.bind (Attempt.clean_record _) fun _ _ => ?_
    refine Attempt.Clean.bind (Attempt.meets_ofExcept j.clean_ladder) fun _ _ => ?_
    have htargets : (Attempt.ofExcept (s.checkTargets j.name (rules.map Condition.target))).Clean := by
      refine Attempt.meets_ofExcept (clean_forM fun t _ => ?_)
      split
      · exact s.clean_checkDestination _ _
      · exact clean_pure ()
    cases j.isBranch with
    | true =>
      refine Attempt.Clean.bind (Attempt.meets_ofExcept (clean_require _ (ne_of_beq_false rfl))) fun _ _ => ?_
      exact Attempt.Clean.bind (Attempt.meets_ofExcept (clean_require _ (ne_of_beq_false rfl))) fun _ _ => htargets
    | false => exact htargets
  split
  · exact Attempt.Clean.bind (Attempt.meets_ofExcept (clean_require _ (ne_of_beq_false rfl))) fun u _ => hrest u
  · exact hrest ()

end Sequence

/-! ## Times -/

namespace Timeline

variable (t : Timeline)

theorem clean_ofVariant (s : Sequence) (variant : Binary64) : Clean (ofVariant s variant) :=
  Clean.bind (Valuation.clean_ofVariables _ _ _) fun _ _ => clean_pure _

theorem clean_valueOf (name owner : String) : Clean (t.valueOf name owner) := by
  unfold valueOf
  split
  · exact clean_pure _
  · exact meets_error (ne_of_beq_false rfl)

theorem clean_offset (o : Offset) (owner : String) : Clean (t.offset o owner) := by
  cases o with
  | absolute value => exact clean_pure _
  | control name => exact t.clean_valueOf _ _

theorem clean_timeFrom (fuel : Nat) (active : List Reference) (r : Reference) (owner : String) :
    Clean (t.timeFrom fuel active r owner) := by
  fun_induction Timeline.timeFrom t fuel active r owner with
  | case1 => exact t.clean_valueOf _ _
  | case2 => exact meets_error (ne_of_beq_false rfl)
  | case3 => exact meets_error (ne_of_beq_false rfl)
  | case4 => exact meets_error (ne_of_beq_false rfl)
  | case5 => exact clean_pure _
  | case6 => exact t.clean_valueOf _ _
  | case7 fuel active r owner _ _ base distance _ ih =>
    exact Clean.bind ih fun _ _ => Clean.bind (t.clean_offset _ _) fun _ _ => clean_pure _

theorem clean_timeOf (r : Reference) (owner : String) : Clean (t.timeOf r owner) := t.clean_timeFrom _ _ _ _

theorem clean_latest : Clean t.latest := by
  refine clean_foldlM (fun c _ latest => ?_) _
  refine Clean.bind (clean_foldlM (fun w _ _ => ?_) _) fun _ _ => clean_foldlM (fun j _ _ => ?_) _
  · exact Clean.bind (t.clean_timeOf _ _) fun _ _ => clean_pure _
  · exact Clean.bind (t.clean_timeOf _ _) fun _ _ => clean_pure _

end Timeline

namespace JumpGraph

theorem clean_ofTimeline (t : Timeline) : Clean (ofTimeline t) := by
  refine Clean.bind (clean_mapM fun e _ => ?_) fun _ _ => clean_pure _
  exact Clean.bind (t.clean_timeOf _ _) fun _ _ => Clean.bind e.1.clean_mergedLadder fun _ _ => clean_pure _

theorem clean_successor (g : JumpGraph) (j : TimedJump) (target : Target) : Clean (g.successor j target) := by
  unfold successor
  split
  · exact clean_pure _
  · exact clean_pure _
  · split
    · exact clean_pure _
    · exact meets_error (ne_of_beq_false rfl)
  · exact Clean.bind (g.timeline.clean_timeOf _ _) fun _ _ => clean_pure _

end JumpGraph

namespace Tree

theorem clean_expand (g : JumpGraph) (levels : Nat) : ∀ path j b, Clean (expand g levels path j b) := by
  induction levels with
  | zero =>
    intro path j b
    unfold expand
    split
    · exact clean_pure _
    · split
      · exact clean_pure _
      · exact clean_pure _
  | succ levels ih =>
    intro path j b
    unfold expand
    split
    · exact clean_pure _
    · split
      · exact clean_pure _
      · refine Clean.bind (clean_foldlM (fun target _ acc => ?_) _) fun _ _ => clean_pure _
        refine Clean.bind (g.clean_successor j target) fun next _ => ?_
        cases next with
        | none => exact clean_pure _
        | some k => exact Clean.bind (ih _ _ _) fun _ _ => clean_pure _

theorem clean_build (g : JumpGraph) : Clean (build g) := by
  unfold build
  cases g.jumps with
  | nil => exact clean_pure _
  | cons first rest => exact Clean.bind (clean_expand g _ _ _ _) fun _ _ => clean_pure _

theorem clean_check (t : Tree) (subject : String) : Clean (t.check subject) := by
  unfold check
  dsimp only
  split
  · exact meets_error (ne_of_beq_false rfl)
  · split
    · exact clean_pure _
    · exact meets_error (ne_of_beq_false rfl)

end Tree

namespace Sequence

variable (s : Sequence) (t : Timeline)

theorem clean_spanOf (c : Channel) (w : Window) : Clean (s.spanOf t c w) := by
  refine Clean.bind (t.clean_timeOf _ _) fun start _ => ?_
  refine Clean.bind (t.clean_timeOf _ _) fun finish _ => ?_
  refine Clean.bind (clean_require _ (ne_of_beq_false rfl)) fun _ _ => ?_
  refine Clean.bind (clean_require _ (ne_of_beq_false rfl)) fun _ _ => ?_
  refine Clean.bind (clean_require _ (ne_of_beq_false rfl)) fun _ _ => ?_
  exact Clean.bind (clean_require _ (ne_of_beq_false rfl)) fun _ _ => clean_pure _

theorem clean_checkOverlap (channel : String) (spans : List Span) : Clean (checkOverlap channel spans) := by
  fun_induction checkOverlap channel spans with
  | case1 a b rest ih => exact Clean.bind (clean_require _ (ne_of_beq_false rfl)) fun _ _ => ih
  | case2 => exact clean_pure ()

theorem clean_spansOf (c : Channel) : Clean (s.spansOf t c) := by
  refine Clean.bind (clean_mapM fun w _ => s.clean_spanOf t c w) fun spans _ => ?_
  split
  · exact Clean.bind (clean_checkOverlap _ _) fun _ _ => clean_pure _
  · exact clean_pure _

theorem clean_destinationsOf (j : Jump) : Clean (destinationsOf t j) := by
  refine Clean.bind j.clean_rules fun rules _ => ?_
  refine clean_filterMapM fun target _ => ?_
  split
  · exact Clean.bind (t.clean_timeOf _ _) fun _ _ => clean_pure _
  · exact clean_pure _

theorem clean_checkJumpTime (boundaries : List Event) (acc : List Event × List Event) (j : Jump) :
    Clean (s.checkJumpTime t boundaries acc j) := by
  refine Clean.bind (t.clean_timeOf _ _) fun time _ => ?_
  refine Clean.bind (clean_require _ (ne_of_beq_false rfl)) fun _ _ => ?_
  cases eventAt? acc.1 time with
  | some clash => exact meets_error (ne_of_beq_false rfl)
  | none =>
    cases eventAt? boundaries time with
    | some window => exact meets_error (ne_of_beq_false rfl)
    | none => exact Clean.bind (clean_destinationsOf t j) fun _ _ => clean_pure _

theorem clean_checkCounting (destinations : List Event) (j : Jump) (c : Channel) :
    Clean (checkCounting t destinations j c) := by
  unfold checkCounting
  split
  · refine Clean.bind (t.clean_timeOf _ _) fun time _ => ?_
    refine Clean.bind (t.clean_timeOf _ _) fun start _ => ?_
    refine Clean.bind (t.clean_timeOf _ _) fun finish _ => ?_
    refine Clean.bind (clean_require _ (ne_of_beq_false rfl)) fun _ _ => ?_
    refine Clean.bind (clean_forM fun _ _ => clean_require _ (ne_of_beq_false rfl)) fun _ _ => clean_forM fun w _ => ?_
    split
    · exact Clean.bind (t.clean_timeOf _ _) fun _ _ => clean_require _ (ne_of_beq_false rfl)
    · exact clean_pure ()
  · exact clean_pure ()

theorem clean_checkTiming (variant : Binary64) : Clean (s.checkTiming variant) := by
  refine Clean.bind (Timeline.clean_ofVariant s variant) fun t _ => ?_
  refine Clean.bind (clean_flatMapM fun c _ => s.clean_spansOf t c) fun spans _ => ?_
  refine Clean.bind (clean_foldlM (fun j _ acc => s.clean_checkJumpTime t _ acc j) _) fun acc _ => ?_
  refine Clean.bind (clean_forM fun e _ => clean_checkCounting t _ _ _) fun _ _ => ?_
  refine Clean.bind (JumpGraph.clean_ofTimeline t) fun g _ => ?_
  exact Clean.bind (Tree.clean_build g) fun e _ => e.1.clean_check s.name

theorem clean_verify : s.verify.Clean := by
  refine Attempt.Clean.bind (Attempt.meets_ofExcept s.clean_checkCounts) fun _ _ => ?_
  refine Attempt.Clean.bind (Attempt.meets_ofExcept s.hardware.clean_check) fun _ _ => ?_
  refine Attempt.Clean.bind (Attempt.meets_ofExcept (clean_checkVariablesFrom _ _ _)) fun _ _ => ?_
  refine Attempt.Clean.bind (Attempt.meets_ofExcept s.clean_checkNames) fun _ _ => ?_
  refine Attempt.Clean.bind (Attempt.meets_ofExcept (clean_forM fun c _ => s.clean_checkChannel c)) fun _ _ => ?_
  refine Attempt.Clean.bind (Attempt.clean_forM fun e _ => s.clean_checkJump e.1 e.2) fun _ _ => ?_
  exact Attempt.meets_ofExcept (clean_forM fun variant _ => s.clean_checkTiming _)

end Sequence

end PulseSequencer
