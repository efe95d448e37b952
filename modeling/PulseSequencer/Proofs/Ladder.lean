import PulseSequencer.Compiler.Branching
import PulseSequencer.Proofs.Attempt
import PulseSequencer.Proofs.Number
import PulseSequencer.Proofs.Sort

/-!
# Ladders reach down to zero

* `Ladder.Grounded`, `Ladder.grounded_of_mergedLadder` : the ladder of a jump has natural thresholds, the last one zero;
* `Ladder.descending_of_mergedLadder` : the thresholds descend, so every rung can be selected;
* `Ladder.target_of_mergedLadder` : the targets are those of the conditions;
* `Ladder.Grounded.exists_find` : every count selects a rung;
* `Build.jumpRungs_cases`, `Build.pairwise_jumpRungs` : the rungs that need a JUMP are all but a last one that passes,
  and their thresholds ascend.
-/

namespace PulseSequencer

namespace CountRange

/-- The range of a condition is not empty. -/
theorem start_lt_stop_of_ofBounds? {start stop : Binary64} {t : Target} {range : CountRange}
    (h : ofBounds? start stop t = some range) : range.start < range.stop ∧ range.stop ≤ Condition.countLimit := by
  unfold ofBounds? at h
  split at h
  · rename_i hcond
    simp only [Bool.and_eq_true, decide_eq_true_eq] at hcond
    obtain ⟨⟨⟨⟨hs, ht⟩, h0⟩, hlimit⟩, hlt⟩ := hcond
    cases h
    rw [Binary64.zero_eq, Binary64.le_iff_value rfl (Binary64.isFinite_of_isWhole hs),
      Binary64.value_eq_toWhole hs] at h0
    have h0' : 0 ≤ start.toWhole := Int.cast_nonneg_iff.1 h0
    rw [Binary64.lt_iff_value (Binary64.isFinite_of_isWhole hs) (Binary64.isFinite_of_isWhole ht),
      Binary64.value_eq_toWhole hs, Binary64.value_eq_toWhole ht, Int.cast_lt] at hlt
    rw [Binary64.ofNat_eq (by decide), ← Int.cast_natCast, Binary64.le_finite_iff ht] at hlimit
    simp only
    omega
  · cases h

theorem start_lt_stop_of_ofConditions {jump : String} {cs : List Condition} : ∀ {ranges : List CountRange},
    ofConditions jump cs = .ok ranges →
    ∀ range ∈ ranges, range.start < range.stop ∧ range.stop ≤ Condition.countLimit := by
  induction cs with
  | nil =>
    intro ranges h
    cases h
    simp
  | cons c cs ih =>
    intro ranges h
    unfold ofConditions at h
    split at h
    · exact ih h
    · split at h
      · cases h
      · rename_i hbounds
        obtain ⟨rest, hrest, h⟩ := Except.bind_eq_ok.1 h
        cases h
        intro range hrange
        rcases List.mem_cons.1 hrange with rfl | hrange
        · exact start_lt_stop_of_ofBounds? hbounds
        · exact ih hrest range hrange

end CountRange

namespace Ladder

/-- The thresholds are natural numbers, the last of them zero. -/
structure Grounded (l : Ladder) : Prop where
  natural : ∀ r ∈ l, ∃ n : Nat, r.threshold = .finite n
  last : ∃ r, l.getLast? = some r ∧ r.threshold = .finite 0

theorem Grounded.cons {r : Rung} {l : Ladder} {n : Nat} (hr : r.threshold = .finite n) (h : Grounded l) :
    Grounded (r :: l) := by
  obtain ⟨e, he, h0⟩ := h.last
  refine ⟨fun x hx => ?_, e, by rw [List.getLast?_cons, he]; rfl, h0⟩
  rcases List.mem_cons.1 hx with rfl | hx
  · exact ⟨n, hr⟩
  · exact h.natural x hx

theorem grounded_singleton {r : Rung} (h : r.threshold = .finite 0) : Grounded [r] :=
  ⟨fun x hx => ⟨0, by rw [List.mem_singleton.1 hx, h, Nat.cast_zero]⟩, r, rfl, h⟩

/-! ## The ladder of a jump -/

/-- A range below the top adds its rung, one for the gap above it, and leaves the rest for what is below it. -/
theorem descend_cons_eq_ok {jump : String} {otherwise : Target} {current : Nat} {range : CountRange}
    {rest : List CountRange} {l : Ladder} :
    descend jump otherwise current (range :: rest) = .ok l ↔
      range.stop ≤ current ∧ ∃ below, descend jump otherwise range.start rest = .ok below ∧
        l = (if range.stop < current then [⟨.ofNat range.stop, otherwise⟩] else []) ++
          ⟨.ofNat range.start, range.target⟩ :: below := by
  rw [descend]
  split
  · rename_i hlt
    exact ⟨nofun, fun h => absurd h.1 (by omega)⟩
  · rename_i hlt
    rw [Except.bind_eq_ok, and_iff_right (by omega)]
    simp only [Except.pure_eq_ok, eq_comm (b := l)]

theorem grounded_of_descend {jump : String} {otherwise : Target} {ranges : List CountRange} :
    ∀ {current : Nat} {l : Ladder}, current ≤ Condition.countLimit → (∀ range ∈ ranges, range.start < range.stop) →
      descend jump otherwise current ranges = .ok l → (current = 0 ∧ l = []) ∨ Grounded l := by
  have hnat : ∀ {n : Nat}, n ≤ Condition.countLimit → Binary64.ofNat n = .finite n := fun {n} hn =>
    Binary64.ofNat_eq (hn.trans (by decide))
  induction ranges with
  | nil =>
    intro current l _ _ h
    cases h
    split
    · exact .inr (grounded_singleton Binary64.zero_eq)
    · exact .inl ⟨by omega, rfl⟩
  | cons range rest ih =>
    intro current l hcurrent hranges h
    have hrange := hranges range List.mem_cons_self
    obtain ⟨hle, below, hbelow, rfl⟩ := descend_cons_eq_ok.1 h
    have hstart : (⟨.ofNat range.start, range.target⟩ : Rung).threshold = .finite range.start := hnat (by omega)
    have htail : Grounded (⟨.ofNat range.start, range.target⟩ :: below) := by
      rcases ih (by omega) (fun x hx => hranges x (List.mem_cons_of_mem _ hx)) hbelow with ⟨h0, rfl⟩ | hg
      · refine grounded_singleton ?_
        rw [hstart, h0, Nat.cast_zero]
      · exact hg.cons hstart
    refine .inr ?_
    split
    · exact htail.cons (hnat (by omega))
    · exact htail

theorem min_finite (a b : Nat) : (Binary64.finite a).min (.finite b) = .finite (min a b : Nat) := by
  have hlt : Binary64.finite b < .finite a ↔ b < a := by rw [Binary64.finite_lt, Nat.cast_lt]
  rw [Binary64.min, if_neg (by simp [Binary64.isNaN])]
  split
  · rename_i h
    rw [Nat.min_eq_right (hlt.1 h).le]
  · rename_i h
    rw [Nat.min_eq_left (Nat.not_lt.1 (mt hlt.2 h))]

theorem grounded_mergeFrom {rest : Ladder} : ∀ {r : Rung}, Grounded (r :: rest) → Grounded (mergeFrom r rest) := by
  induction rest with
  | nil => exact fun h => h
  | cons x rest ih =>
    intro r h
    obtain ⟨a, ha⟩ := h.natural r List.mem_cons_self
    obtain ⟨b, hb⟩ := h.natural x (by simp)
    have htail : Grounded (x :: rest) := by
      refine ⟨fun y hy => h.natural y (List.mem_cons_of_mem _ hy), ?_⟩
      rw [← List.getLast?_cons_cons]
      exact h.last
    unfold mergeFrom
    split
    · refine ih ?_
      have hmin : (⟨r.threshold.min x.threshold, r.target⟩ : Rung).threshold = .finite (min a b : Nat) := by
        rw [ha, hb, min_finite]
      cases rest with
      | nil =>
        obtain ⟨e, he, h0⟩ := htail.last
        obtain rfl : x = e := Option.some.inj he
        rw [hb, Binary64.finite.injEq, Nat.cast_eq_zero] at h0
        exact grounded_singleton (by rw [hmin, h0, Nat.min_zero, Nat.cast_zero])
      | cons y rest =>
        refine Grounded.cons hmin ⟨fun z hz => htail.natural z (List.mem_cons_of_mem _ hz), ?_⟩
        rw [← List.getLast?_cons_cons]
        exact htail.last
    · exact (ih htail).cons ha

theorem grounded_of_mergedLadder {j : Jump} {l : Ladder} (h : j.mergedLadder = .ok l) : Grounded l := by
  obtain ⟨raw, hraw, h⟩ := Except.bind_eq_ok.1 h
  cases h
  obtain ⟨rules, -, hraw⟩ := Except.bind_eq_ok.1 hraw
  obtain ⟨ranges, hranges, hraw⟩ := Except.bind_eq_ok.1 hraw
  split at hraw
  · cases hraw
  · have hg := grounded_of_descend (le_refl _) (fun range hrange =>
      (CountRange.start_lt_stop_of_ofConditions hranges range (Sort.mem_sortBy.1 hrange)).1) hraw
    rcases hg with ⟨h0, -⟩ | hg
    · exact absurd h0 (by decide)
    · cases raw with
      | nil => exact hg
      | cons r rest => exact grounded_mergeFrom hg

/-! ## Order of the rungs -/

/-- Every threshold is below the ones before it. -/
def Descending (l : Ladder) : Prop := l.Pairwise fun a b => b.threshold < a.threshold

theorem descending_of_descend {jump : String} {otherwise : Target} {ranges : List CountRange} :
    ∀ {current : Nat} {l : Ladder}, current ≤ Condition.countLimit → (∀ range ∈ ranges, range.start < range.stop) →
      descend jump otherwise current ranges = .ok l → Descending l ∧ ∀ r ∈ l, r.threshold < .finite current := by
  have hnat : ∀ {n : Nat}, n ≤ Condition.countLimit → Binary64.ofNat n = .finite n := fun {n} hn =>
    Binary64.ofNat_eq (hn.trans (by decide))
  have hlt : ∀ {m n : Nat}, Binary64.finite m < .finite n ↔ m < n := by
    intro m n
    rw [Binary64.finite_lt, Nat.cast_lt]
  induction ranges with
  | nil =>
    intro current l _ _ h
    cases h
    split
    · rename_i hpos
      refine ⟨List.pairwise_singleton _ _, fun r hr => ?_⟩
      rw [List.mem_singleton.1 hr, Binary64.zero_eq, ← Nat.cast_zero, hlt]
      exact hpos
    · exact ⟨.nil, by simp⟩
  | cons range rest ih =>
    intro current l hcurrent hranges h
    have hrange := hranges range List.mem_cons_self
    obtain ⟨hle, below, hbelow, rfl⟩ := descend_cons_eq_ok.1 h
    obtain ⟨hdesc, hbound⟩ := ih (by omega) (fun x hx => hranges x (List.mem_cons_of_mem _ hx)) hbelow
    have htail : Descending (⟨.ofNat range.start, range.target⟩ :: below) := by
      refine List.pairwise_cons.2 ⟨fun r hr => ?_, hdesc⟩
      rw [hnat (by omega)]
      exact hbound r hr
    have hstop : ∀ r ∈ (⟨.ofNat range.start, range.target⟩ :: below : Ladder), r.threshold < .finite range.stop := by
      refine List.forall_mem_cons.2 ⟨?_, fun r hr => Binary64.lt_trans (hbound r hr) (hlt.2 hrange)⟩
      rw [hnat (by omega), hlt]
      exact hrange
    split
    · rename_i hgap
      refine ⟨List.pairwise_cons.2 ⟨fun r hr => ?_, htail⟩, List.forall_mem_cons.2 ⟨?_, fun r hr => ?_⟩⟩
      · rw [hnat (by omega)]
        exact hstop r hr
      · rw [hnat (by omega), hlt]
        exact hgap
      · exact Binary64.lt_trans (hstop r hr) (hlt.2 hgap)
    · obtain rfl : range.stop = current := by omega
      exact ⟨htail, hstop⟩

/-- The lower of two thresholds is that of the later rung. -/
theorem descending_mergeFrom {rest : Ladder} : ∀ {r : Rung}, Descending (r :: rest) → Descending (mergeFrom r rest) ∧
    ∀ bound, r.threshold < bound → ∀ x ∈ mergeFrom r rest, x.threshold < bound := by
  induction rest with
  | nil =>
    intro r h
    exact ⟨h, fun bound hr x hx => by rw [List.mem_singleton.1 hx]; exact hr⟩
  | cons y rest ih =>
    intro r h
    obtain ⟨hr, htail⟩ := List.pairwise_cons.1 h
    have hy := hr y List.mem_cons_self
    unfold mergeFrom
    split
    · have hmin : r.threshold.min y.threshold = y.threshold := by
        have hnan : r.threshold.isNaN = false ∧ y.threshold.isNaN = false := by
          constructor
          · cases hr : r.threshold with
            | nan =>
              rw [hr] at hy
              exact absurd hy (Binary64.not_lt_nan _)
            | _ => rfl
          · cases hy' : y.threshold with
            | nan =>
              rw [hy'] at hy
              cases hy
            | _ => rfl
        rw [Binary64.min, if_neg (by simp [hnan]), if_pos hy]
      rw [hmin]
      have hmerged : Descending (⟨y.threshold, r.target⟩ :: rest) :=
        List.pairwise_cons.2 ⟨(List.pairwise_cons.1 htail).1, (List.pairwise_cons.1 htail).2⟩
      obtain ⟨h1, h2⟩ := ih hmerged
      exact ⟨h1, fun bound hb => h2 bound (Binary64.lt_trans hy hb)⟩
    · obtain ⟨h1, h2⟩ := ih htail
      refine ⟨List.pairwise_cons.2 ⟨h2 _ hy, h1⟩, fun bound hb => ?_⟩
      exact List.forall_mem_cons.2 ⟨hb, h2 bound (Binary64.lt_trans hy hb)⟩

theorem descending_of_mergedLadder {j : Jump} {l : Ladder} (h : j.mergedLadder = .ok l) :
    Descending l ∧ ∀ r ∈ l, r.threshold < .finite Condition.countLimit := by
  obtain ⟨raw, hraw, h⟩ := Except.bind_eq_ok.1 h
  cases h
  obtain ⟨rules, -, hraw⟩ := Except.bind_eq_ok.1 hraw
  obtain ⟨ranges, hranges, hraw⟩ := Except.bind_eq_ok.1 hraw
  split at hraw
  · cases hraw
  · obtain ⟨hdesc, hbound⟩ := descending_of_descend (le_refl _) (fun range hrange =>
      (CountRange.start_lt_stop_of_ofConditions hranges range (Sort.mem_sortBy.1 hrange)).1) hraw
    cases raw with
    | nil => exact ⟨hdesc, hbound⟩
    | cons r rest =>
      obtain ⟨hmerged, hless⟩ := descending_mergeFrom hdesc
      exact ⟨hmerged, hless _ (hbound r List.mem_cons_self)⟩

/-! ## Targets -/

theorem target_of_ofConditions {jump : String} {cs : List Condition} : ∀ {ranges : List CountRange},
    CountRange.ofConditions jump cs = .ok ranges → ∀ range ∈ ranges, ∃ c ∈ cs, c.target = range.target := by
  induction cs with
  | nil =>
    intro ranges h
    cases h
    simp
  | cons c cs ih =>
    intro ranges h range hrange
    unfold CountRange.ofConditions at h
    split at h
    · obtain ⟨c', hc', htarget⟩ := ih h range hrange
      exact ⟨c', List.mem_cons_of_mem _ hc', htarget⟩
    · split at h
      · cases h
      · rename_i hbounds
        obtain ⟨rest, hrest, h⟩ := Except.bind_eq_ok.1 h
        cases h
        rcases List.mem_cons.1 hrange with rfl | hrange
        · refine ⟨c, List.mem_cons_self, ?_⟩
          unfold CountRange.ofBounds? at hbounds
          split at hbounds
          · cases hbounds
            rfl
          · cases hbounds
        · obtain ⟨c', hc', htarget⟩ := ih hrest range hrange
          exact ⟨c', List.mem_cons_of_mem _ hc', htarget⟩

theorem target_of_descend {jump : String} {otherwise : Target} {ranges : List CountRange} :
    ∀ {current : Nat} {l : Ladder}, descend jump otherwise current ranges = .ok l →
      ∀ r ∈ l, r.target = otherwise ∨ ∃ range ∈ ranges, range.target = r.target := by
  induction ranges with
  | nil =>
    intro current l h r hr
    cases h
    split at hr
    · rw [List.mem_singleton.1 hr]
      exact .inl rfl
    · cases hr
  | cons range rest ih =>
    intro current l h r hr
    obtain ⟨-, below, hbelow, rfl⟩ := descend_cons_eq_ok.1 h
    rcases List.mem_append.1 hr with hr | hr
    · split at hr
      · rw [List.mem_singleton.1 hr]
        exact .inl rfl
      · cases hr
    · rcases List.mem_cons.1 hr with rfl | hr
      · exact .inr ⟨range, List.mem_cons_self, rfl⟩
      · exact (ih hbelow r hr).imp_right fun ⟨x, hx, htarget⟩ => ⟨x, List.mem_cons_of_mem _ hx, htarget⟩

theorem target_of_mergeFrom {rest : Ladder} : ∀ {r x : Rung}, x ∈ mergeFrom r rest →
    ∃ y ∈ r :: rest, y.target = x.target := by
  induction rest with
  | nil =>
    intro r x hx
    exact ⟨x, hx, rfl⟩
  | cons y rest ih =>
    intro r x hx
    unfold mergeFrom at hx
    split at hx
    · obtain ⟨z, hz, htarget⟩ := ih hx
      rcases List.mem_cons.1 hz with rfl | hz
      · exact ⟨r, List.mem_cons_self, htarget⟩
      · exact ⟨z, List.mem_cons_of_mem _ (List.mem_cons_of_mem _ hz), htarget⟩
    · rcases List.mem_cons.1 hx with rfl | hx
      · exact ⟨x, List.mem_cons_self, rfl⟩
      · obtain ⟨z, hz, htarget⟩ := ih hx
        exact ⟨z, List.mem_cons_of_mem _ hz, htarget⟩

/-- The targets of a ladder are those of the conditions. -/
theorem target_of_mergedLadder {j : Jump} {rules : List Condition} {l : Ladder} (hrules : j.rules = .ok rules)
    (h : j.mergedLadder = .ok l) : ∀ r ∈ l, ∃ c ∈ rules, c.target = r.target := by
  intro r hr
  obtain ⟨raw, hraw, h⟩ := Except.bind_eq_ok.1 h
  cases h
  obtain ⟨rules', hrules', hraw⟩ := Except.bind_eq_ok.1 hraw
  cases hrules.symm.trans hrules'
  obtain ⟨ranges, hranges, hraw⟩ := Except.bind_eq_ok.1 hraw
  split at hraw
  · cases hraw
  · rename_i otherwise hfind
    have hmem : otherwise ∈ rules := List.mem_reverse.1 (List.mem_of_find?_eq_some hfind)
    obtain ⟨y, hy, htarget⟩ : ∃ y ∈ raw, y.target = r.target := by
      cases raw with
      | nil => cases hr
      | cons x rest => exact target_of_mergeFrom hr
    rw [← htarget]
    rcases target_of_descend hraw y hy with hother | ⟨range, hrange, heq⟩
    · exact ⟨otherwise, hmem, hother.symm⟩
    · obtain ⟨c, hc, hct⟩ := target_of_ofConditions hranges range (Sort.mem_sortBy.1 hrange)
      exact ⟨c, hc, hct.trans heq⟩

/-! ## Counts -/

theorem Grounded.le_iff {l : Ladder} (h : Grounded l) {r : Rung} (hr : r ∈ l) (c : Int) :
    r.threshold ≤ .finite c ↔ (r.threshold.toWhole.toNat : Int) ≤ c := by
  obtain ⟨n, hn⟩ := h.natural r hr
  have hwhole : r.threshold.toWhole = n := by
    rw [hn, ← Int.cast_natCast, Binary64.toWhole_finite_intCast]
  rw [hwhole, Int.toNat_natCast, hn, Binary64.finite_le, ← Int.cast_natCast, Int.cast_le]

theorem Grounded.equal_zero_iff {l : Ladder} (h : Grounded l) {r : Rung} (hr : r ∈ l) :
    r.threshold.equal 0 = true ↔ r.threshold = .finite 0 := by
  obtain ⟨n, hn⟩ := h.natural r hr
  have hle : ∀ a b : Rat, Binary64.le (.finite a) (.finite b) = true ↔ a ≤ b := fun a b => Binary64.finite_le
  rw [hn, Binary64.zero_eq, Binary64.equal, Bool.and_eq_true, hle, hle, Binary64.finite.injEq]
  exact ⟨fun h => le_antisymm h.1 h.2, fun h => ⟨h.le, h.ge⟩⟩

/-- Every count selects a rung. -/
theorem Grounded.exists_find {l : Ladder} (h : Grounded l) {c : Int} (hc : 0 ≤ c) :
    ∃ r, l.find? (fun r => decide (r.threshold ≤ .finite c)) = some r ∧ l.select (.finite c) = .ok r.target := by
  obtain ⟨e, he, h0⟩ := h.last
  have hsome : (l.find? fun r => decide (r.threshold ≤ .finite c)).isSome = true := by
    rw [List.find?_isSome]
    refine ⟨e, List.mem_of_getLast? he, ?_⟩
    rw [decide_eq_true_eq, h0, Binary64.finite_le]
    exact_mod_cast hc
  obtain ⟨r, hr⟩ := Option.isSome_iff_exists.1 hsome
  exact ⟨r, hr, by rw [select, hr]⟩

end Ladder

namespace Build

/-- All rungs need a JUMP, except for a last one that passes. -/
theorem jumpRungs_cases {l : Ladder} (h : l.Grounded) :
    (∃ init r, l = init ++ [r] ∧ r.target = .pass ∧ jumpRungs l = init.reverse) ∨
      jumpRungs l = l.reverse ∧ ∃ r, l.getLast? = some r ∧ r.threshold = .finite 0 := by
  obtain ⟨e, he, h0⟩ := h.last
  obtain ⟨init, rfl⟩ := List.getLast?_eq_some_iff.1 he
  have hzero : e.threshold.equal 0 = true := (h.equal_zero_iff (by simp)).2 h0
  by_cases hpass : e.target = .pass
  · exact .inl ⟨init, e, rfl, hpass, by simp [jumpRungs, hzero, hpass]⟩
  · exact .inr ⟨by simp [jumpRungs, hzero, hpass], e, he, h0⟩

theorem jumpRungs_sublist (l : Ladder) : (jumpRungs l).Sublist l.reverse := by
  unfold jumpRungs
  split
  · rename_i r rest hrev
    rw [hrev]
    split
    · exact List.sublist_cons_self r rest
    · exact List.Sublist.refl _
  · exact List.nil_sublist _

theorem mem_of_mem_jumpRungs {l : Ladder} {r : Rung} (h : r ∈ jumpRungs l) : r ∈ l :=
  List.mem_reverse.1 ((jumpRungs_sublist l).subset h)

/-- The thresholds of the JUMPs ascend. -/
theorem pairwise_jumpRungs {l : Ladder} (h : l.Descending) :
    (jumpRungs l).Pairwise fun r r' => r.threshold < r'.threshold :=
  (List.pairwise_reverse.2 h).sublist (jumpRungs_sublist l)

/-- Of several rungs, one at least needs a JUMP. -/
theorem jumpRungs_ne_nil {l : Ladder} (h : l.Grounded) (hlen : 2 ≤ l.length) : jumpRungs l ≠ [] := by
  intro hnil
  rcases jumpRungs_cases h with ⟨init, r, rfl, -, hrungs⟩ | ⟨hrungs, -⟩
  · rw [hrungs, List.reverse_eq_nil_iff] at hnil
    rw [hnil] at hlen
    simp at hlen
  · rw [hrungs, List.reverse_eq_nil_iff] at hnil
    rw [hnil] at hlen
    simp at hlen

theorem mem_jumpRungs {l : Ladder} (h : l.Grounded) {r : Rung} (hr : r ∈ l) (ht : r.target ≠ .pass) :
    r ∈ jumpRungs l := by
  rcases jumpRungs_cases h with ⟨init, e, rfl, hpass, hrungs⟩ | ⟨hrungs, -⟩
  · rw [hrungs, List.mem_reverse]
    rcases List.mem_append.1 hr with hr | hr
    · exact hr
    · rw [List.mem_singleton.1 hr] at ht
      exact absurd hpass ht
  · rwa [hrungs, List.mem_reverse]

end Build

end PulseSequencer
