import PulseSequencer.Proofs.JumpTimes
import PulseSequencer.Proofs.Layout

/-!
# The timing rules

The check of a variant goes through its windows and jumps one by one: it compares neighbours in a sorted list, looks
times up among those seen before, and collects landings on the way. What it accepts is said here without any of that.

* `Sequence.TimingRules` : the rules for the windows and jumps of a variant, each about any two of them;
* `Sequence.checkOverlap_sortBy_eq_ok` : comparing neighbours finds every overlap of windows that are not empty;
* `Sequence.checkCounting_eq_ok` : the counting period of a branch;
* `Sequence.checkTiming_iff` : the check accepts a variant exactly when it keeps the rules.
-/

namespace PulseSequencer

/-! ## The rules -/

/-- A window is open from its start on and closed from its end on. -/
def Timeline.Open (t : Timeline) (w : Window) (x : Binary64) : Prop :=
  ∃ start finish, t.startOf w.name = .ok start ∧ t.finishOf w.name = .ok finish ∧ start ≤ x ∧ x < finish

namespace Sequence

/-- The counting period of a branch on a window of channel `c`. -/
structure CountsAt (s : Sequence) (t : Timeline) (c : Channel) (window : String) (time start finish : Binary64) :
    Prop where
  ended : finish ≤ time
  landing : ∀ e ∈ s.jumps, ∀ x, t.LandsAt e.1 x → ¬ (start < x ∧ x < time)
  closest : ∀ w ∈ c.windows, w.name ≠ window → ∀ x, t.finishOf w.name = .ok x → ¬ (finish < x ∧ x ≤ time)

/-- The rules for the times of a variant. -/
structure TimingRules (s : Sequence) (t : Timeline) : Prop where
  windows : ∀ c ∈ s.channels, ∀ w ∈ c.windows, ∃ start finish, s.WindowAt t c w start finish
  jumps : ∀ e ∈ s.jumps, ∃ time, t.jumpTime e.1.name = .ok time ∧ s.Inside time
  disjoint : ∀ c ∈ s.channels, c.role = .output → c.windows.Pairwise fun v w => ∀ x, ¬ (t.Open v x ∧ t.Open w x)
  apart : s.jumps.Pairwise fun a b => ∀ x y, t.jumpTime a.1.name = .ok x → t.jumpTime b.1.name = .ok y → x < y ∨ y < x
  boundaries : ∀ e ∈ s.jumps, ∀ c ∈ s.channels, ∀ w ∈ c.windows, ∀ x y, t.jumpTime e.1.name = .ok x →
    t.startOf w.name = .ok y ∨ t.finishOf w.name = .ok y → x < y ∨ y < x
  counting : ∀ e ∈ s.jumps, ∀ window conditions, e.1.action = .branch window conditions → ∀ time start finish,
    t.jumpTime e.1.name = .ok time → t.startOf window = .ok start → t.finishOf window = .ok finish →
      s.CountsAt t e.2 window time start finish
  reachable : ∃ g tree count, JumpGraph.ofTimeline t = .ok g ∧ Tree.build g = .ok (tree, count) ∧
    tree.check s.name = .ok ()

variable {s : Sequence} {t : Timeline} {c : Channel} {w : Window} {j : Jump} {x : Span} {xs : List Span}

/-! ## Windows -/

/-- In a sequence of finite length every control window is long enough. -/
theorem WindowAt.one_le {start finish : Binary64} (h : s.WindowAt t c w start finish)
    (hlength : s.length.isFinite = true) (hc : c.isControl = true) : 1 ≤ finish - start := by
  refine (h.lasting hc).resolve_right ?_
  rintro ⟨rfl, -⟩
  obtain ⟨-, hle⟩ := h.finish_inside
  cases hx : s.length with
  | nan | infinite _ => cases hx ▸ hlength
  | negZero | finite _ => cases hx ▸ hle

/-- Neighbours that do not overlap leave no room for others to do so. -/
theorem checkOverlap_eq_ok {channel : String} (hpos : ∀ x ∈ xs, x.start < x.finish) :
    checkOverlap channel xs = .ok () ↔ xs.Pairwise fun a b => a.finish ≤ b.start := by
  induction xs with
  | nil => exact iff_of_true rfl .nil
  | cons a xs ih =>
    have ih := ih fun x hx => hpos x (List.mem_cons_of_mem _ hx)
    cases xs with
    | nil => exact iff_of_true rfl (List.pairwise_singleton _ _)
    | cons b xs =>
      have ha := hpos a List.mem_cons_self
      have hb := hpos b (List.mem_cons_of_mem _ List.mem_cons_self)
      rw [checkOverlap, require_bind_eq_ok, ih, Bool.not_eq_true', decide_eq_false_iff_not,
        Binary64.not_lt (Binary64.isNaN_of_lt hb).1 (Binary64.isNaN_of_lt ha).2]
      constructor
      · rintro ⟨hab, hpair⟩
        refine List.pairwise_cons.2 ⟨List.forall_mem_cons.2 ⟨hab, fun y hy => ?_⟩, hpair⟩
        have hby := (List.pairwise_cons.1 hpair).1 y hy
        exact Binary64.le_of_lt (Binary64.lt_of_lt_of_le (Binary64.lt_of_le_of_lt hab hb) hby)
      · intro h
        obtain ⟨hall, hpair⟩ := List.pairwise_cons.1 h
        exact ⟨hall b List.mem_cons_self, hpair⟩

/-- No time is in both. -/
def Span.Disjoint (a b : Span) : Prop := ∀ x, ¬ ((a.start ≤ x ∧ x < a.finish) ∧ (b.start ≤ x ∧ x < b.finish))

theorem Span.disjoint_of_le {a b : Span} (h : a.finish ≤ b.start) : a.Disjoint b := by
  rintro x ⟨⟨-, hxa⟩, hxb, -⟩
  exact Binary64.lt_irrefl _ (Binary64.lt_of_lt_of_le hxa (Binary64.le_trans h hxb))

theorem Span.Disjoint.symm {a b : Span} (h : a.Disjoint b) : b.Disjoint a := fun x hx => h x hx.symm

/-- Of two windows that are not empty the one that starts later starts after the end of the other. -/
theorem Span.Disjoint.le_of_le {a b : Span} (h : a.Disjoint b) (ha : a.start < a.finish) (hb : b.start < b.finish)
    (hab : a.start ≤ b.start) : a.finish ≤ b.start := by
  rw [← Binary64.not_lt (Binary64.isNaN_of_lt hb).1 (Binary64.isNaN_of_lt ha).2]
  intro hlt
  exact h b.start ⟨⟨hab, hlt⟩, Binary64.le_refl (Binary64.isNaN_of_lt hb).1, hb⟩

theorem checkOverlap_sortBy_eq_ok {channel : String} (hpos : ∀ x ∈ xs, x.start < x.finish) :
    checkOverlap channel (Sort.sortBy (fun a b => !decide (b.start < a.start)) xs) = .ok () ↔
      xs.Pairwise Span.Disjoint := by
  have hperm := Sort.perm_sortBy (fun a b : Span => !decide (b.start < a.start)) xs
  rw [checkOverlap_eq_ok fun x hx => hpos x (hperm.mem_iff.1 hx)]
  constructor
  · intro h
    exact (h.imp fun hab => Span.disjoint_of_le hab).perm hperm fun h => h.symm
  · intro h
    -- the starts are different, so sorting puts them in strict order
    have hstarts : xs.Pairwise fun a b => a.start < b.start ∨ b.start < a.start := by
      refine h.imp_of_mem fun {a b} ha hb hab => ?_
      have ha := hpos a ha
      have hb := hpos b hb
      have hna := (Binary64.isNaN_of_lt ha).1
      have hnb := (Binary64.isNaN_of_lt hb).1
      by_contra hsame
      rw [not_or, Binary64.not_lt hna hnb, Binary64.not_lt hnb hna] at hsame
      have hle := hab.le_of_le ha hb hsame.2
      exact Binary64.lt_irrefl _ (Binary64.lt_of_lt_of_le ha (Binary64.le_trans hle hsame.1))
    have hsorted := @Sort.pairwise_sortBy_of_lt _ (fun a b : Span => !decide (b.start < a.start))
      (fun a b : Span => a.start < b.start) Binary64.lt_trans (by simp) xs hstarts
    refine (hsorted.and (h.perm hperm.symm fun h => h.symm)).imp_of_mem fun {a b} ha hb hab => ?_
    exact hab.2.le_of_le (hpos a (hperm.mem_iff.1 ha)) (hpos b (hperm.mem_iff.1 hb)) (Binary64.le_of_lt hab.1)

/-- The windows of an output channel are not empty. -/
def Positive (t : Timeline) (c : Channel) : Prop := c.role = .output → ∀ w ∈ c.windows, ∀ start finish,
  t.startOf w.name = .ok start → t.finishOf w.name = .ok finish → start < finish

instance (t : Timeline) (c : Channel) : Decidable (Positive t c) :=
  decidable_of_iff (c.role = .output → ∀ w ∈ c.windows, ∀ start ∈ (t.startOf w.name).toOption,
    ∀ finish ∈ (t.finishOf w.name).toOption, start < finish) <| by
      simp only [Option.mem_def, Except.toOption_eq_some]
      exact ⟨fun h hc w hw start finish hs hf => h hc w hw start hs finish hf,
        fun h hc w hw start hs finish hf => h hc w hw start finish hs hf⟩

theorem open_iff_of_spanOf (h : s.spanOf t c w = .ok x) {y : Binary64} :
    t.Open w y ↔ x.start ≤ y ∧ y < x.finish := by
  obtain ⟨-, hw⟩ := spanOf_eq_ok.1 h
  constructor
  · rintro ⟨start, finish, hstart, hfinish, hle, hlt⟩
    cases hw.starts.symm.trans hstart
    cases hw.ends.symm.trans hfinish
    exact ⟨hle, hlt⟩
  · rintro ⟨hle, hlt⟩
    exact ⟨x.start, x.finish, hw.starts, hw.ends, hle, hlt⟩

theorem disjoint_iff_of_forall₂ (hall : List.Forall₂ (fun w x => s.spanOf t c w = .ok x) c.windows xs) :
    xs.Pairwise Span.Disjoint ↔ c.windows.Pairwise fun v w => ∀ x, ¬ (t.Open v x ∧ t.Open w x) := by
  constructor
  · intro h
    refine pairwise_of_forall₂ hall.flip h fun a b v w hab hv hw y => ?_
    rw [open_iff_of_spanOf hv, open_iff_of_spanOf hw]
    exact hab y
  · intro h
    refine pairwise_of_forall₂ hall h fun v w a b hvw hv hw y => ?_
    rw [← open_iff_of_spanOf hv, ← open_iff_of_spanOf hw]
    exact hvw y

theorem exists_spansOf_iff (hpos : Positive t c) : (∃ xs, s.spansOf t c = .ok xs) ↔
    (∀ w ∈ c.windows, ∃ start finish, s.WindowAt t c w start finish) ∧
      (c.role = .output → c.windows.Pairwise fun v w => ∀ x, ¬ (t.Open v x ∧ t.Open w x)) := by
  have hspans : ∀ {xs}, List.Forall₂ (fun w x => s.spanOf t c w = .ok x) c.windows xs → c.role = .output →
      (checkOverlap c.name (Sort.sortBy (fun a b => !decide (b.start < a.start)) xs) = .ok () ↔
        c.windows.Pairwise fun v w => ∀ x, ¬ (t.Open v x ∧ t.Open w x)) := by
    intro xs hall hrole
    rw [← disjoint_iff_of_forall₂ hall, checkOverlap_sortBy_eq_ok]
    intro x hx
    obtain ⟨w, hw, hspan⟩ := forall₂_exists_left hall hx
    obtain ⟨-, hspan⟩ := spanOf_eq_ok.1 hspan
    exact hpos hrole w hw _ _ hspan.starts hspan.ends
  constructor
  · rintro ⟨xs, h⟩
    obtain ⟨hall, hoverlap⟩ := spansOf_eq_ok.1 h
    refine ⟨fun w hw => ?_, fun hrole => (hspans hall hrole).1 (hoverlap hrole)⟩
    obtain ⟨x, -, hx⟩ := forall₂_exists_right hall hw
    exact ⟨x.start, x.finish, (spanOf_eq_ok.1 hx).2⟩
  · rintro ⟨hwindows, hdisjoint⟩
    have hexists : ∀ w ∈ c.windows, ∃ x, s.spanOf t c w = .ok x := fun w hw => by
      obtain ⟨start, finish, h⟩ := hwindows w hw
      exact ⟨⟨w.name, start, finish⟩, spanOf_eq_ok.2 ⟨rfl, h⟩⟩
    obtain ⟨xs, hall⟩ := exists_forall₂ hexists
    exact ⟨xs, spansOf_eq_ok.2 ⟨hall, fun hrole => (hspans hall hrole).2 (hdisjoint hrole)⟩⟩

/-- The boundaries of the windows of all channels. -/
theorem mem_boundaries {spans : List Span} (h : s.channels.flatMapM (s.spansOf t) = .ok spans) {y : Binary64} :
    (∃ name, (y, name) ∈ spans.flatMap fun w => [(w.start, w.name), (w.finish, w.name)]) ↔
      ∃ c ∈ s.channels, ∃ w ∈ c.windows, t.startOf w.name = .ok y ∨ t.finishOf w.name = .ok y := by
  obtain ⟨zs, hall, rfl⟩ := Except.flatMapM_eq_ok.1 h
  constructor
  · rintro ⟨name, hmem⟩
    obtain ⟨x, hx, hy⟩ := List.mem_flatMap.1 hmem
    obtain ⟨xs, hxs, hx⟩ := List.mem_flatten.1 hx
    obtain ⟨c, hc, hspans⟩ := forall₂_exists_left hall hxs
    obtain ⟨w, hw, hspan⟩ := forall₂_exists_left (spansOf_eq_ok.1 hspans).1 hx
    obtain ⟨-, hspan⟩ := spanOf_eq_ok.1 hspan
    refine ⟨c, hc, w, hw, ?_⟩
    rcases List.mem_cons.1 hy with hy | hy
    · cases hy
      exact .inl hspan.starts
    · cases List.mem_singleton.1 hy
      exact .inr hspan.ends
  · rintro ⟨c, hc, w, hw, hy⟩
    obtain ⟨xs, hxs, hspans⟩ := forall₂_exists_right hall hc
    obtain ⟨x, hx, hspan⟩ := forall₂_exists_right (spansOf_eq_ok.1 hspans).1 hw
    obtain ⟨-, hspan⟩ := spanOf_eq_ok.1 hspan
    refine ⟨x.name, List.mem_flatMap.2 ⟨x, List.mem_flatten.2 ⟨xs, hxs, hx⟩, ?_⟩⟩
    rcases hy with hy | hy
    · cases hspan.starts.symm.trans hy
      exact List.mem_cons_self
    · cases hspan.ends.symm.trans hy
      exact List.mem_cons_of_mem _ (List.mem_singleton.2 rfl)

/-! ## Counting periods -/

theorem checkCounting_eq_ok {destinations : List Event} {window : String} {conditions : List Condition}
    (haction : j.action = .branch window conditions) : checkCounting t destinations j c = .ok () ↔
      ∃ time start finish, t.jumpTime j.name = .ok time ∧ t.startOf window = .ok start ∧
        t.finishOf window = .ok finish ∧ ¬ time < finish ∧ (∀ e ∈ destinations, ¬ (start < e.1 ∧ e.1 < time)) ∧
        ∀ w ∈ c.windows, w.name ≠ window →
          ∃ other, t.finishOf w.name = .ok other ∧ ¬ (finish < other ∧ other ≤ time) := by
  unfold checkCounting
  rw [haction]
  have hlanding : ∀ {time start : Binary64}, (destinations.forM fun e =>
      require (!(decide (start < e.1) && decide (e.1 < time)))
        (invalid j.name s!"Jump '{e.2}' lands inside the counting period of '{j.name}'")) = .ok () ↔
      ∀ e ∈ destinations, ¬ (start < e.1 ∧ e.1 < time) := by
    intro time start
    rw [Except.forM_eq_ok]
    refine forall_congr' fun e => imp_congr_right fun _ => ?_
    simp only [require_eq_ok, Bool.not_eq_true', Bool.and_eq_false_iff, decide_eq_false_iff_not, not_and_or]
  have hclosest : ∀ {time finish : Binary64}, (c.windows.forM fun w => do
      if w.name != window then
        let other ← t.finishOf w.name
        require (!(decide (other ≤ time) && decide (finish < other)))
          (invalid j.name s!"Window '{w.name}' ends between window '{window}' and jump '{j.name}'")) = .ok () ↔
      ∀ w ∈ c.windows, w.name ≠ window →
        ∃ other, t.finishOf w.name = .ok other ∧ ¬ (finish < other ∧ other ≤ time) := by
    intro time finish
    rw [Except.forM_eq_ok]
    refine forall_congr' fun w => imp_congr_right fun _ => ?_
    by_cases hne : w.name = window
    · simp [hne, pure, Except.pure]
    · rw [if_pos (by simpa using hne), Except.bind_eq_ok]
      simp only [require_eq_ok, Bool.not_eq_true', Bool.and_eq_false_iff, decide_eq_false_iff_not, ne_eq, hne,
        not_false_eq_true, forall_const, not_and_or, or_comm]
  constructor
  · intro h
    obtain ⟨time, htime, h⟩ := Except.bind_eq_ok.1 h
    obtain ⟨start, hstart, h⟩ := Except.bind_eq_ok.1 h
    obtain ⟨finish, hfinish, h⟩ := Except.bind_eq_ok.1 h
    obtain ⟨hended, h⟩ := require_bind_eq_ok.1 h
    obtain ⟨⟨⟩, hlands, h⟩ := Except.bind_eq_ok.1 h
    exact ⟨time, start, finish, htime, hstart, hfinish, by simpa using hended, hlanding.1 hlands, hclosest.1 h⟩
  · rintro ⟨time, start, finish, htime, hstart, hfinish, hended, hlands, h⟩
    refine Except.bind_eq_ok.2
      ⟨time, htime, Except.bind_eq_ok.2 ⟨start, hstart, Except.bind_eq_ok.2 ⟨finish, hfinish, ?_⟩⟩⟩
    exact require_bind_eq_ok.2 ⟨by simpa using hended, Except.bind_eq_ok.2 ⟨(), hlanding.2 hlands, hclosest.2 h⟩⟩

/-! ## Descriptions that have been checked -/

/-- A branch tests a window of its channel. -/
theorem exists_window_of_checkJump (h : (s.checkJump j c).outcome = .ok ()) {window : String}
    {conditions : List Condition} (haction : j.action = .branch window conditions) :
    ∃ w ∈ c.windows, w.name = window := by
  unfold checkJump at h
  simp only [haction] at h
  obtain ⟨⟨⟩, hwindow, -⟩ := Attempt.bind_eq_ok.1 h
  simpa using require_eq_ok.1 (Attempt.ofExcept_eq_ok.1 hwindow)

theorem mem_channels_of_mem_jumps {e : Jump × Channel} (he : e ∈ s.jumps) : e.2 ∈ s.channels := by
  obtain ⟨c, hc, he⟩ := List.mem_flatMap.1 he
  obtain ⟨j, -, rfl⟩ := List.mem_map.1 he
  exact hc

/-- The places that jumps may go to have times if all windows and jumps have. -/
theorem exists_timeOf_of_checkDestination {jump owner : String} {r : Reference}
    (hcheck : s.checkDestination jump r = .ok ())
    (hwindows : ∀ c ∈ s.channels, ∀ w ∈ c.windows, ∃ start finish, s.WindowAt t c w start finish)
    (hjumps : ∀ e ∈ s.jumps, ∃ time, t.jumpTime e.1.name = .ok time ∧ s.Inside time) :
    ∃ time, t.timeOf r owner = .ok time := by
  obtain ⟨c, hc, w, hw, rfl | rfl⟩ | ⟨e, he, rfl⟩ := checkDestination_cases hcheck
  · obtain ⟨start, finish, h⟩ := hwindows c hc w hw
    exact ⟨start, Timeline.timeOf_owner (by simp) h.starts owner⟩
  · obtain ⟨start, finish, h⟩ := hwindows c hc w hw
    exact ⟨finish, Timeline.timeOf_owner (by simp) h.ends owner⟩
  · obtain ⟨time, htime, -⟩ := hjumps e he
    exact ⟨time, Timeline.timeOf_owner (by simp) htime owner⟩

/-- The boundaries of a window that is inside the sequence are comparable. -/
theorem isNaN_of_boundary (hw : ∃ start finish, s.WindowAt t c w start finish) {y : Binary64}
    (hy : t.startOf w.name = .ok y ∨ t.finishOf w.name = .ok y) : y.isNaN = false := by
  obtain ⟨start, finish, hw⟩ := hw
  rcases hy with hy | hy
  · cases hw.starts.symm.trans hy
    exact hw.start_inside.isNaN
  · cases hw.ends.symm.trans hy
    exact hw.finish_inside.isNaN

/-! ## The check -/

section Check

variable {spans : List Span} {rs : List (Event × List Event)} {acc : List Event × List Event}

/-- The lookup among the boundaries compares a time with each of them. -/
theorem off_iff (hspans : s.channels.flatMapM (s.spansOf t) = .ok spans)
    (hwindows : ∀ c ∈ s.channels, ∀ w ∈ c.windows, ∃ start finish, s.WindowAt t c w start finish) {time : Binary64}
    (htime : s.Inside time) :
    (∀ e ∈ spans.flatMap fun w => [(w.start, w.name), (w.finish, w.name)], e.1.sameKey time = false) ↔
      ∀ c ∈ s.channels, ∀ w ∈ c.windows, ∀ y, t.startOf w.name = .ok y ∨ t.finishOf w.name = .ok y →
        time < y ∨ y < time := by
  constructor
  · intro h c hc w hw y hy
    obtain ⟨name, hmem⟩ := (mem_boundaries hspans).2 ⟨c, hc, w, hw, hy⟩
    have hnan := isNaN_of_boundary (hwindows c hc w hw) hy
    exact ((Binary64.sameKey_eq_false hnan htime.isNaN).1 (h _ hmem)).symm
  · intro h e he
    obtain ⟨c, hc, w, hw, hy⟩ := (mem_boundaries hspans).1 ⟨e.2, he⟩
    have hnan := isNaN_of_boundary (hwindows c hc w hw) hy
    exact (Binary64.sameKey_eq_false hnan htime.isNaN).2 (h c hc w hw e.1 hy).symm

/-- The landings that have been collected are those of all jumps. -/
theorem checkCounting_iff {boundaries : List Event}
    (hall : List.Forall₂ (s.JumpAt t boundaries) (s.jumps.map Prod.fst) rs)
    (hwindows : ∀ c ∈ s.channels, ∀ w ∈ c.windows, ∃ start finish, s.WindowAt t c w start finish)
    {e : Jump × Channel} (he : e ∈ s.jumps) (hdescription : (s.checkJump e.1 e.2).outcome = .ok ()) :
    checkCounting t (rs.flatMap Prod.snd) e.1 e.2 = .ok () ↔
      ∀ window conditions, e.1.action = .branch window conditions → ∀ time start finish,
        t.jumpTime e.1.name = .ok time → t.startOf window = .ok start → t.finishOf window = .ok finish →
          s.CountsAt t e.2 window time start finish := by
  cases haction : e.1.action with
  | terminate | goto _ =>
    refine iff_of_true ?_ fun _ _ => nofun
    unfold checkCounting
    rw [haction]
    rfl
  | branch window conditions =>
    have hc := mem_channels_of_mem_jumps he
    obtain ⟨w, hw, rfl⟩ := exists_window_of_checkJump hdescription haction
    obtain ⟨start, finish, hwindow⟩ := hwindows e.2 hc w hw
    obtain ⟨r, -, hr⟩ := forall₂_exists_right hall (List.mem_map_of_mem he)
    have hended := Binary64.not_lt hr.inside.isNaN hwindow.finish_inside.isNaN
    rw [checkCounting_eq_ok haction]
    constructor
    · rintro ⟨time, start, finish, htime, hstart, hfinish, hafter, hlanding, hclosest⟩
        _ _ ⟨⟩ time' start' finish' htime' hstart' hfinish'
      cases htime.symm.trans htime'
      cases hstart.symm.trans hstart'
      cases hfinish.symm.trans hfinish'
      cases hr.time.symm.trans htime
      cases hwindow.ends.symm.trans hfinish
      refine ⟨hended.1 hafter, fun e' he' x hx hbetween => ?_, fun v hv hne x hx hbetween => ?_⟩
      · obtain ⟨r', hmem, hr'⟩ := forall₂_exists_right hall (List.mem_map_of_mem he')
        obtain ⟨source, hsource⟩ := (mem_of_destinationsOf hr'.destinations).2 hx
        exact hlanding (x, source) (List.mem_flatMap.2 ⟨r', hmem, hsource⟩) hbetween
      · obtain ⟨other, hother, hnot⟩ := hclosest v hv hne
        cases hother.symm.trans hx
        exact hnot hbetween
    · intro h
      have hcounts := h w.name conditions rfl r.1.1 start finish hr.time hwindow.starts hwindow.ends
      refine ⟨r.1.1, start, finish, hr.time, hwindow.starts, hwindow.ends, hended.2 hcounts.ended, fun d hd => ?_,
        fun v hv hne => ?_⟩
      · obtain ⟨r', hr', hd⟩ := List.mem_flatMap.1 hd
        obtain ⟨j, hj, hjump⟩ := forall₂_exists_left hall hr'
        obtain ⟨e', he', rfl⟩ := List.mem_map.1 hj
        exact hcounts.landing e' he' d.1 ((mem_of_destinationsOf hjump.destinations).1 ⟨d.2, hd⟩)
      · obtain ⟨_, other, hother⟩ := hwindows e.2 hc v hv
        exact ⟨other, hother.ends, hcounts.closest v hv hne other hother.ends⟩

theorem timingRules_of_checks (hdescription : ∀ e ∈ s.jumps, (s.checkJump e.1 e.2).outcome = .ok ())
    (hpositive : ∀ c ∈ s.channels, Positive t c) (hspans : s.channels.flatMapM (s.spansOf t) = .ok spans)
    (hfold : (s.jumps.map Prod.fst).foldlM
      (s.checkJumpTime t (spans.flatMap fun w => [(w.start, w.name), (w.finish, w.name)])) ([], []) = .ok acc)
    (hcounting : ∀ e ∈ s.jumps, checkCounting t acc.2 e.1 e.2 = .ok ())
    (hreachable : ∃ g tree count, JumpGraph.ofTimeline t = .ok g ∧ Tree.build g = .ok (tree, count) ∧
      tree.check s.name = .ok ()) : s.TimingRules t := by
  obtain ⟨zs, hzs, -⟩ := Except.flatMapM_eq_ok.1 hspans
  have hchannels : ∀ c ∈ s.channels, (∀ w ∈ c.windows, ∃ start finish, s.WindowAt t c w start finish) ∧
      (c.role = .output → c.windows.Pairwise fun v w => ∀ x, ¬ (t.Open v x ∧ t.Open w x)) := fun c hc => by
    obtain ⟨xs, -, hxs⟩ := forall₂_exists_right hzs hc
    exact (exists_spansOf_iff (hpositive c hc)).1 ⟨xs, hxs⟩
  have hwindows := fun c hc => (hchannels c hc).1
  obtain ⟨rs, hall, -, hpair, rfl⟩ := foldlM_checkJumpTime_iff.1 hfold
  refine ⟨hwindows, fun e he => ?_, fun c hc => (hchannels c hc).2, ?_, fun e he => ?_, fun e he => ?_, hreachable⟩
  · obtain ⟨r, -, hr⟩ := forall₂_exists_right hall (List.mem_map_of_mem he)
    exact ⟨r.1.1, hr.time, hr.inside⟩
  · exact List.pairwise_map.1 ((apart_iff_of_forall₂ hall).1 hpair)
  · intro c hc w hw x y hx hy
    obtain ⟨r, -, hr⟩ := forall₂_exists_right hall (List.mem_map_of_mem he)
    cases hr.time.symm.trans hx
    exact (off_iff hspans hwindows hr.inside).1 hr.off c hc w hw y hy
  · exact (checkCounting_iff hall hwindows he (hdescription e he)).1 (hcounting e he)

/-- A variant that keeps the rules passes the checks of its windows and of its jumps. -/
theorem TimingRules.exists_checks (h : s.TimingRules t)
    (hdescription : ∀ e ∈ s.jumps, (s.checkJump e.1 e.2).outcome = .ok ())
    (hpositive : ∀ c ∈ s.channels, Positive t c) : ∃ spans acc, s.channels.flatMapM (s.spansOf t) = .ok spans ∧
      (s.jumps.map Prod.fst).foldlM
        (s.checkJumpTime t (spans.flatMap fun w => [(w.start, w.name), (w.finish, w.name)])) ([], []) = .ok acc ∧
      ∀ e ∈ s.jumps, checkCounting t acc.2 e.1 e.2 = .ok () := by
  have hchannels : ∀ c ∈ s.channels, ∃ xs, s.spansOf t c = .ok xs := fun c hc =>
    (exists_spansOf_iff (hpositive c hc)).2 ⟨h.windows c hc, h.disjoint c hc⟩
  obtain ⟨zs, hzs⟩ := exists_forall₂ hchannels
  have hspans : s.channels.flatMapM (s.spansOf t) = .ok zs.flatten := Except.flatMapM_eq_ok.2 ⟨zs, hzs, rfl⟩
  have hjumps : ∀ j ∈ s.jumps.map Prod.fst, ∃ r,
      s.JumpAt t (zs.flatten.flatMap fun w => [(w.start, w.name), (w.finish, w.name)]) j r := by
    intro j hj
    obtain ⟨e, he, rfl⟩ := List.mem_map.1 hj
    obtain ⟨time, htime, hinside⟩ := h.jumps e he
    obtain ⟨rules, hrules, htargets⟩ := exists_rules_of_checkJump (hdescription e he)
    have hevents : ∃ events, destinationsOf t e.1 = .ok events := by
      refine (exists_destinationsOf_iff hrules).2 fun c hc r hr => ?_
      have hcheck := Except.forM_eq_ok.1 htargets c.target (List.mem_map_of_mem hc)
      rw [hr] at hcheck
      exact exists_timeOf_of_checkDestination hcheck h.windows h.jumps
    obtain ⟨events, hevents⟩ := hevents
    refine ⟨((time, e.1.name), events), rfl, htime, hinside, ?_, hevents⟩
    exact (off_iff hspans h.windows hinside).2 fun c hc w hw y hy => h.boundaries e he c hc w hw time y htime hy
  obtain ⟨rs, hall⟩ := exists_forall₂ hjumps
  have hapart := (apart_iff_of_forall₂ hall).2 (List.pairwise_map.2 h.apart)
  exact ⟨zs.flatten, _, hspans, foldlM_checkJumpTime_iff.2 ⟨rs, hall, fun _ _ => nofun, hapart, rfl⟩,
    fun e he => (checkCounting_iff hall h.windows he (hdescription e he)).2 (h.counting e he)⟩

end Check

/-- The check of a variant accepts exactly what keeps the rules, if its jumps are described well and the windows of its
output channels are not empty. -/
theorem checkTiming_iff {variant : Binary64} (hdescription : ∀ e ∈ s.jumps, (s.checkJump e.1 e.2).outcome = .ok ())
    (hpositive : ∀ t, Timeline.ofVariant s variant = .ok t → ∀ c ∈ s.channels, Positive t c) :
    s.checkTiming variant = .ok () ↔ ∃ t, Timeline.ofVariant s variant = .ok t ∧ s.TimingRules t := by
  unfold checkTiming
  rw [Except.bind_eq_ok]
  refine exists_congr fun t => and_congr_right fun ht => ?_
  constructor
  · intro h
    obtain ⟨spans, hspans, h⟩ := Except.bind_eq_ok.1 h
    obtain ⟨acc, hfold, h⟩ := Except.bind_eq_ok.1 h
    obtain ⟨⟨⟩, hcounting, h⟩ := Except.bind_eq_ok.1 h
    obtain ⟨g, hg, h⟩ := Except.bind_eq_ok.1 h
    obtain ⟨⟨tree, count⟩, htree, hcheck⟩ := Except.bind_eq_ok.1 h
    exact timingRules_of_checks hdescription (hpositive t ht) hspans hfold (Except.forM_eq_ok.1 hcounting)
      ⟨g, tree, count, hg, htree, hcheck⟩
  · intro h
    obtain ⟨spans, acc, hspans, hfold, hcounting⟩ := h.exists_checks hdescription (hpositive t ht)
    obtain ⟨g, tree, count, hg, htree, hcheck⟩ := h.reachable
    refine Except.bind_eq_ok.2 ⟨spans, hspans, Except.bind_eq_ok.2 ⟨acc, hfold, Except.bind_eq_ok.2
      ⟨(), Except.forM_eq_ok.2 hcounting, ?_⟩⟩⟩
    exact Except.bind_eq_ok.2 ⟨g, hg, Except.bind_eq_ok.2 ⟨(tree, count), htree, hcheck⟩⟩

end Sequence

theorem Bench.gated_timed : gated.checkTiming 0 = .ok () ∧ ∃ t, Timeline.ofVariant gated 0 = .ok t ∧
    gated.TimingRules t := by
  have hok : gated.checkTiming 0 = .ok () := by decide +kernel
  have hdescription : ∀ e ∈ gated.jumps, (gated.checkJump e.1 e.2).outcome = .ok () := by decide +kernel
  have hpositive : (Timeline.ofVariant gated 0).map (fun t => decide (∀ c ∈ gated.channels, Sequence.Positive t c)) =
      .ok true := by decide +kernel
  refine ⟨hok, (Sequence.checkTiming_iff hdescription fun t ht => ?_).1 hok⟩
  rw [ht] at hpositive
  simpa [Except.map] using hpositive

end PulseSequencer
