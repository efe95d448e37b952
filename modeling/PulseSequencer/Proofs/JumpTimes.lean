import PulseSequencer.Proofs.Graph
import PulseSequencer.Proofs.Timing

/-!
# Times of jumps

* `Sequence.JumpAt`, `Sequence.foldlM_checkJumpTime_iff` : the jumps that pass their check;
* `Sequence.JumpTimes`, `Sequence.jumpTimes_of_checkTiming` : in a checked variant the jumps have times of their own,
  and the places they go to have times as well;
* `Sequence.JumpTimes.ordered`, `Sequence.JumpTimes.resolves` : so the jump graph is in order and complete.
-/

namespace PulseSequencer

/-- The owner of a reference shows in faults only. -/
theorem Timeline.timeOf_owner {t : Timeline} {r : Reference} (hr : ∀ name, r ≠ .control name) {owner : String}
    {time : Binary64} (h : t.timeOf r owner = .ok time) (owner' : String) : t.timeOf r owner' = .ok time := by
  have hnil : ([] : List Reference).contains r = false := rfl
  rw [timeOf, depth] at h ⊢
  cases r with
  | control name => exact absurd rfl (hr name)
  | start name | finish name | jump name =>
    unfold timeFrom at h ⊢
    rw [hnil] at h ⊢
    simp only [Bool.false_eq_true, if_false] at h ⊢
    split at h
    · cases h
    all_goals exact h

/-- The jump can go to a place of this time. -/
def Timeline.LandsAt (t : Timeline) (j : Jump) (landing : Binary64) : Prop :=
  ∃ rules, j.rules = .ok rules ∧ ∃ c ∈ rules, ∃ r, c.target = .destination r ∧ t.timeOf r j.name = .ok landing

namespace Sequence

/-! ## Destinations -/

section Jump

variable {s : Sequence} {t : Timeline} {j : Jump}

/-- What a target adds to the destinations of a jump. -/
def landing? (t : Timeline) (j : Jump) : Target → Except Fault (Option Event)
  | .destination r => do return some ((← t.timeOf r j.name), j.name)
  | _ => pure none

theorem landing?_eq_ok {target : Target} {e : Event} : landing? t j target = .ok (some e) ↔
    ∃ r, target = .destination r ∧ t.timeOf r j.name = .ok e.1 ∧ e.2 = j.name := by
  cases target with
  | terminate | pass => exact iff_of_false (by rintro ⟨⟩) (by rintro ⟨_, ⟨⟩, _⟩)
  | destination r =>
    rw [landing?, Except.bind_eq_ok]
    constructor
    · rintro ⟨time, htime, h⟩
      cases h
      exact ⟨r, rfl, htime, rfl⟩
    · rintro ⟨_, ⟨⟩, htime, hname⟩
      exact ⟨e.1, htime, by rw [← hname]; rfl⟩

theorem destinationsOf_eq_ok {events : List Event} : destinationsOf t j = .ok events ↔ ∃ rules zs, j.rules = .ok rules ∧
    List.Forall₂ (fun target z => landing? t j target = .ok z) (rules.map Condition.target) zs ∧
      events = zs.filterMap id := by
  have hunfold : destinationsOf t j =
      j.rules >>= fun rules => (rules.map Condition.target).filterMapM (landing? t j) := rfl
  simp only [hunfold, Except.bind_eq_ok, Except.filterMapM_eq_ok, exists_and_left]

theorem mem_of_destinationsOf {events : List Event} (h : destinationsOf t j = .ok events) {y : Binary64} :
    (∃ source, (y, source) ∈ events) ↔ t.LandsAt j y := by
  obtain ⟨rules, zs, hrules, hall, rfl⟩ := destinationsOf_eq_ok.1 h
  constructor
  · rintro ⟨source, hmem⟩
    obtain ⟨_, hz, rfl⟩ := List.mem_filterMap.1 hmem
    obtain ⟨target, htarget, hfound⟩ := forall₂_exists_left hall hz
    obtain ⟨c, hc, rfl⟩ := List.mem_map.1 htarget
    obtain ⟨r, hr, htime, -⟩ := landing?_eq_ok.1 hfound
    exact ⟨rules, hrules, c, hc, r, hr, htime⟩
  · rintro ⟨rules', hrules', c, hc, r, hr, htime⟩
    cases hrules.symm.trans hrules'
    obtain ⟨z, hz, hfound⟩ := forall₂_exists_right hall (List.mem_map_of_mem hc)
    cases (landing?_eq_ok.2 ⟨r, hr, htime, rfl⟩ : landing? t j c.target = .ok (some (y, j.name))).symm.trans hfound
    exact ⟨j.name, List.mem_filterMap.2 ⟨_, hz, rfl⟩⟩

/-- A jump has destinations if each place it can go to has a time. -/
theorem exists_destinationsOf_iff {rules : List Condition} (hrules : j.rules = .ok rules) :
    (∃ events, destinationsOf t j = .ok events) ↔
      ∀ c ∈ rules, ∀ r, c.target = .destination r → ∃ time, t.timeOf r j.name = .ok time := by
  constructor
  · rintro ⟨events, h⟩ c hc r hr
    obtain ⟨rules', zs, hrules', hall, -⟩ := destinationsOf_eq_ok.1 h
    cases hrules.symm.trans hrules'
    obtain ⟨z, -, hfound⟩ := forall₂_exists_right hall (List.mem_map_of_mem hc)
    rw [hr] at hfound
    obtain ⟨time, htime, -⟩ := Except.bind_eq_ok.1 hfound
    exact ⟨time, htime⟩
  · intro h
    have hfound : ∀ target ∈ rules.map Condition.target, ∃ z, landing? t j target = .ok z := by
      intro target htarget
      obtain ⟨c, hc, rfl⟩ := List.mem_map.1 htarget
      cases hr : c.target with
      | terminate | pass => exact ⟨none, rfl⟩
      | destination r =>
        obtain ⟨time, htime⟩ := h c hc r hr
        exact ⟨_, Except.bind_eq_ok.2 ⟨time, htime, rfl⟩⟩
    obtain ⟨zs, hall⟩ := exists_forall₂ hfound
    exact ⟨_, destinationsOf_eq_ok.2 ⟨rules, zs, hrules, hall, rfl⟩⟩

/-! ## Checked jumps -/

theorem eventAt?_eq_none {events : List Event} {time : Binary64} :
    eventAt? events time = none ↔ ∀ e ∈ events, e.1.sameKey time = false := by
  rw [eventAt?, Option.map_eq_none_iff, List.find?_eq_none]
  simp

/-- A jump that has been checked, with its time and its destinations. -/
structure JumpAt (s : Sequence) (t : Timeline) (boundaries : List Event) (j : Jump) (r : Event × List Event) :
    Prop where
  name : r.1.2 = j.name
  time : t.jumpTime j.name = .ok r.1.1
  inside : s.Inside r.1.1
  off : ∀ e ∈ boundaries, e.1.sameKey r.1.1 = false
  destinations : destinationsOf t j = .ok r.2

theorem checkJumpTime_iff {boundaries : List Event} {acc acc' : List Event × List Event} :
    s.checkJumpTime t boundaries acc j = .ok acc' ↔ ∃ r, s.JumpAt t boundaries j r ∧
      (∀ e ∈ acc.1, e.1.sameKey r.1.1 = false) ∧ acc' = (acc.1 ++ [r.1], acc.2 ++ r.2) := by
  constructor
  · intro h
    obtain ⟨time, htime, h⟩ := Except.bind_eq_ok.1 h
    obtain ⟨⟨⟩, hinside, h⟩ := Except.bind_eq_ok.1 h
    simp only at h
    split at h
    · cases h
    rename_i hfresh
    split at h
    · cases h
    rename_i hoff
    obtain ⟨events, hevents, h⟩ := Except.bind_eq_ok.1 h
    cases h
    exact ⟨((time, j.name), events), ⟨rfl, htime, checkInside_eq_ok.1 hinside, eventAt?_eq_none.1 hoff, hevents⟩,
      eventAt?_eq_none.1 hfresh, rfl⟩
  · rintro ⟨⟨⟨time, name⟩, events⟩, hr, hfresh, rfl⟩
    cases hr.name
    refine Except.bind_eq_ok.2 ⟨time, hr.time, Except.bind_eq_ok.2 ⟨(), checkInside_eq_ok.2 hr.inside, ?_⟩⟩
    simp only [eventAt?_eq_none.2 hfresh, eventAt?_eq_none.2 hr.off]
    exact Except.bind_eq_ok.2 ⟨events, hr.destinations, rfl⟩

theorem foldlM_checkJumpTime_iff {boundaries : List Event} {js : List Jump} : ∀ {acc acc' : List Event × List Event},
    js.foldlM (s.checkJumpTime t boundaries) acc = .ok acc' ↔ ∃ rs, List.Forall₂ (s.JumpAt t boundaries) js rs ∧
      (∀ r ∈ rs, ∀ e ∈ acc.1, e.1.sameKey r.1.1 = false) ∧ (rs.Pairwise fun a b => a.1.1.sameKey b.1.1 = false) ∧
        acc' = (acc.1 ++ rs.map Prod.fst, acc.2 ++ rs.flatMap Prod.snd) := by
  induction js with
  | nil =>
    intro acc acc'
    constructor
    · intro h
      cases h
      exact ⟨[], .nil, nofun, .nil, by simp⟩
    · rintro ⟨rs, hall, -, -, rfl⟩
      cases hall
      simp [pure, Except.pure]
  | cons j js ih =>
    intro acc acc'
    rw [Except.foldlM_cons_eq_ok]
    constructor
    · rintro ⟨acc₁, hstep, hrest⟩
      obtain ⟨r, hr, hfresh, rfl⟩ := checkJumpTime_iff.1 hstep
      obtain ⟨rs, hall, hfreshes, hpair, rfl⟩ := ih.1 hrest
      refine ⟨r :: rs, .cons hr hall, List.forall_mem_cons.2 ⟨hfresh, fun r' hr' e he => ?_⟩,
        List.pairwise_cons.2 ⟨fun r' hr' => ?_, hpair⟩, by simp⟩
      · exact hfreshes r' hr' e (List.mem_append_left _ he)
      · exact hfreshes r' hr' r.1 (List.mem_append_right _ (List.mem_singleton.2 rfl))
    · rintro ⟨rs, hall, hfresh, hpair, rfl⟩
      obtain ⟨r, rs, hr, hrest, rfl⟩ := List.forall₂_cons_left_iff.1 hall
      obtain ⟨hhead, hpair⟩ := List.pairwise_cons.1 hpair
      refine ⟨_, checkJumpTime_iff.2 ⟨r, hr, hfresh r List.mem_cons_self, rfl⟩,
        ih.2 ⟨rs, hrest, fun r' hr' e he => ?_, hpair, by simp⟩⟩
      rcases List.mem_append.1 he with he | he
      · exact hfresh r' (List.mem_cons_of_mem _ hr') e he
      · rw [List.mem_singleton.1 he]
        exact hhead r' hr'

theorem apart_iff_of_forall₂ {boundaries : List Event} {js : List Jump} {rs : List (Event × List Event)}
    (hall : List.Forall₂ (s.JumpAt t boundaries) js rs) : (rs.Pairwise fun a b => a.1.1.sameKey b.1.1 = false) ↔
      js.Pairwise fun a b => ∀ x y, t.jumpTime a.name = .ok x → t.jumpTime b.name = .ok y → x < y ∨ y < x := by
  constructor
  · intro h
    refine pairwise_of_forall₂ hall.flip h fun a b j k hab hj hk x y hx hy => ?_
    cases hj.time.symm.trans hx
    cases hk.time.symm.trans hy
    exact (Binary64.sameKey_eq_false hj.inside.isNaN hk.inside.isNaN).1 hab
  · intro h
    refine pairwise_of_forall₂ hall h fun j k a b hjk hj hk => ?_
    exact (Binary64.sameKey_eq_false hj.inside.isNaN hk.inside.isNaN).2 (hjk _ _ hj.time hk.time)

end Jump

/-- The jumps of a variant in time. -/
structure JumpTimes (s : Sequence) (t : Timeline) : Prop where
  time : ∀ e ∈ s.jumps, ∃ time, t.jumpTime e.1.name = .ok time ∧ 0 ≤ time
  apart : s.jumps.Pairwise fun a b => ∀ x y, t.jumpTime a.1.name = .ok x → t.jumpTime b.1.name = .ok y → x < y ∨ y < x
  destination : ∀ e ∈ s.jumps, ∀ rules, e.1.rules = .ok rules → ∀ c ∈ rules, ∀ r, c.target = .destination r →
    ∃ time, t.timeOf r e.1.name = .ok time
  graph : ∃ g, JumpGraph.ofTimeline t = .ok g ∧ (Tree.build g >>= fun r => r.1.check s.name) = .ok ()

theorem jumpTimes_of_checkTiming {s : Sequence} {variant : Binary64} {t : Timeline} (h : s.checkTiming variant = .ok ())
    (ht : Timeline.ofVariant s variant = .ok t) : s.JumpTimes t := by
  obtain ⟨t', ht', h⟩ := Except.bind_eq_ok.1 h
  cases ht.symm.trans ht'
  obtain ⟨spans, -, h⟩ := Except.bind_eq_ok.1 h
  obtain ⟨⟨events, destinations⟩, hfold, h⟩ := Except.bind_eq_ok.1 h
  obtain ⟨⟨⟩, -, h⟩ := Except.bind_eq_ok.1 h
  obtain ⟨g, hg, h⟩ := Except.bind_eq_ok.1 h
  obtain ⟨rs, hall, -, hpair, -⟩ := foldlM_checkJumpTime_iff.1 hfold
  refine ⟨fun e he => ?_, List.pairwise_map.1 ((apart_iff_of_forall₂ hall).1 hpair), fun e he rules hrules => ?_, g, hg,
    h⟩
  · obtain ⟨r, -, hr⟩ := forall₂_exists_right hall (List.mem_map_of_mem he)
    exact ⟨r.1.1, hr.time, hr.inside.1⟩
  · obtain ⟨r, -, hr⟩ := forall₂_exists_right hall (List.mem_map_of_mem he)
    exact (exists_destinationsOf_iff hrules).1 ⟨r.2, hr.destinations⟩

/-! ## Places -/

theorem exists_rules_of_checkJump {s : Sequence} {j : Jump} {c : Channel} (h : (s.checkJump j c).outcome = .ok ()) :
    ∃ rules, j.rules = .ok rules ∧ s.checkTargets j.name (rules.map Condition.target) = .ok () := by
  unfold checkJump at h
  simp only at h
  split at h
  case' h_1 => obtain ⟨⟨⟩, -, h⟩ := Attempt.bind_eq_ok.1 h
  all_goals
    obtain ⟨rules, hrules, h⟩ := Attempt.bind_eq_ok.1 h
    obtain ⟨⟨⟩, -, h⟩ := Attempt.bind_eq_ok.1 h
    obtain ⟨_, -, h⟩ := Attempt.bind_eq_ok.1 h
    refine ⟨rules, Attempt.ofExcept_eq_ok.1 hrules, ?_⟩
    split at h
    · obtain ⟨⟨⟩, -, h⟩ := Attempt.bind_eq_ok.1 h
      obtain ⟨⟨⟩, -, h⟩ := Attempt.bind_eq_ok.1 h
      exact Attempt.ofExcept_eq_ok.1 h
    · exact Attempt.ofExcept_eq_ok.1 h

/-- A jump of a verified sequence goes to places that its check allows. -/
theorem Verified.checkDestination {s : Sequence} (h : s.Verified) {e : Jump × Channel} (he : e ∈ s.jumps) {l : Ladder}
    (hladder : e.1.mergedLadder = .ok l) {r : Rung} (hr : r ∈ l) {ref : Reference} (ht : r.target = .destination ref) :
    s.checkDestination e.1.name ref = .ok () := by
  obtain ⟨rules, hrules, htargets⟩ := exists_rules_of_checkJump (h.jumps e he)
  obtain ⟨c, hc, htarget⟩ := Ladder.target_of_mergedLadder hrules hladder r hr
  have hcheck := Except.forM_eq_ok.1 htargets c.target (List.mem_map_of_mem hc)
  rw [htarget, ht] at hcheck
  exact hcheck

theorem exists_of_jump? {s : Sequence} {name : String} {j : Jump} (h : s.jump? name = some j) :
    ∃ e ∈ s.jumps, e.1.name = name := by
  obtain ⟨e, he, -⟩ := Option.map_eq_some_iff.1 h
  exact ⟨e, List.mem_of_find?_eq_some he, by simpa using List.find?_some he⟩

theorem exists_of_window? {s : Sequence} {name : String} (h : (s.window? name).isSome = true) :
    ∃ c ∈ s.channels, ∃ w ∈ c.windows, w.name = name := by
  rw [window?, Option.isSome_map, List.find?_isSome] at h
  obtain ⟨⟨w, c⟩, hmem, hname⟩ := h
  obtain ⟨c', hc', hw⟩ := List.mem_flatMap.1 hmem
  obtain ⟨w', hw', heq⟩ := List.mem_map.1 hw
  cases heq
  exact ⟨c, hc', w, hw', by simpa using hname⟩

/-- A jump goes to boundaries of windows and to jumps. -/
theorem checkDestination_cases {s : Sequence} {jump : String} {r : Reference} (h : s.checkDestination jump r = .ok ()) :
    (∃ c ∈ s.channels, ∃ w ∈ c.windows, r = .start w.name ∨ r = .finish w.name) ∨
    ∃ e ∈ s.jumps, r = .jump e.1.name := by
  cases r with
  | control name => cases h
  | start name =>
    obtain ⟨c, hc, w, hw, rfl⟩ := exists_of_window? (require_eq_ok.1 h)
    exact .inl ⟨c, hc, w, hw, .inl rfl⟩
  | finish name =>
    obtain ⟨c, hc, w, hw, rfl⟩ := exists_of_window? (require_eq_ok.1 h)
    exact .inl ⟨c, hc, w, hw, .inr rfl⟩
  | jump name =>
    unfold checkDestination at h
    simp only at h
    split at h
    · cases h
    rename_i hjump
    obtain ⟨e, he, rfl⟩ := exists_of_jump? hjump
    exact .inr ⟨e, he, rfl⟩

/-! ## The graph -/

namespace JumpTimes

variable {s : Sequence} {t : Timeline} {g : JumpGraph}

theorem ordered (h : s.JumpTimes t) (hv : s.Verified) (hs : t.sequence = s) (hg : JumpGraph.ofTimeline t = .ok g) :
    g.Ordered := by
  obtain ⟨-, js, hperm, hall⟩ := JumpGraph.perm_of_ofTimeline hg
  rw [hs] at hall
  refine JumpGraph.ordered_of_ofTimeline hg (by rw [hs]; exact hv.jumpNames) ?_
  have hpair : js.Pairwise fun a b => a.time < b.time ∨ b.time < a.time :=
    pairwise_of_forall₂ hall h.apart fun _ _ _ _ hne hj hk => hne _ _ hj.2.1 hk.2.1
  exact hpair.perm hperm.symm fun hlt => hlt.symm

theorem resolves (h : s.JumpTimes t) (hv : s.Verified) (hs : t.sequence = s) (hg : JumpGraph.ofTimeline t = .ok g) :
    ∀ j ∈ g.jumps, ∀ r ∈ j.ladder, g.Resolves j r.target := by
  obtain ⟨ht, js, hperm, hall⟩ := JumpGraph.perm_of_ofTimeline hg
  rw [hs] at hall
  intro j hj r hr
  obtain ⟨e, he, hname, htime, hladder⟩ := forall₂_exists_left hall (hperm.mem_iff.1 hj)
  cases htarget : r.target with
  | terminate => trivial
  | pass => trivial
  | destination ref =>
    have hcheck := hv.checkDestination he hladder hr htarget
    obtain ⟨rules, hrules, -⟩ := exists_rules_of_checkJump (hv.jumps e he)
    obtain ⟨c, hc, hct⟩ := Ladder.target_of_mergedLadder hrules hladder r hr
    obtain ⟨time, htime⟩ := h.destination e he rules hrules c hc ref (hct.trans htarget)
    rw [← hname, ← ht] at htime
    obtain ⟨c', -, w, -, rfl | rfl⟩ | ⟨e', he', rfl⟩ := checkDestination_cases hcheck
    · exact ⟨time, htime⟩
    · exact ⟨time, htime⟩
    · obtain ⟨k, hk, hkname, -⟩ := forall₂_exists_right hall he'
      exact ⟨k, hperm.mem_iff.2 hk, hkname⟩

end JumpTimes

end Sequence

end PulseSequencer
