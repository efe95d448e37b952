import PulseSequencer.Proofs.Latest
import PulseSequencer.Proofs.ReorderedJumps

/-!
# What a ladder selects

* `Ladder.select_merge`, `Ladder.isChain_merge` : merging changes no decision and leaves no neighbours with one target;
* `Condition.Covers`, `Condition.Sound` : the counts of a condition, and when its range can be used;
* `Jump.Regular`, `Jump.Objection` : the jumps that have a ladder, and what is said of the others;
* `Jump.Decides`, `Jump.ladder_means` : the ladder of a jump selects what its conditions say.
-/

namespace PulseSequencer

namespace Binary64

variable {x y z : Binary64}

/-- The smaller of two numbers is reached by what reaches one of them. -/
theorem min_le_iff (hx : x.isNaN = false) (hy : y.isNaN = false) : x.min y ≤ z ↔ x ≤ z ∨ y ≤ z := by
  cases hz : z.isNaN with
  | true =>
    rw [eq_nan hz]
    simp [not_le_nan]
  | false =>
    rw [Binary64.min, if_neg (by simp [hx, hy]), le_iff_key hx hz, le_iff_key hy hz]
    split
    · rename_i hlt
      rw [lt_iff_key hy hx] at hlt
      rw [le_iff_key hy hz]
      exact ⟨.inr, fun h => h.elim hlt.le.trans id⟩
    · rename_i hlt
      rw [lt_iff_key hy hx, not_lt] at hlt
      rw [le_iff_key hx hz]
      exact ⟨.inl, fun h => h.elim id hlt.trans⟩

theorem isNaN_min (hx : x.isNaN = false) (hy : y.isNaN = false) : (x.min y).isNaN = false := by
  rw [Binary64.min, if_neg (by simp [hx, hy])]
  split <;> assumption

end Binary64

/-! ## Merging -/

namespace Ladder

theorem select_cons (r : Rung) (l : Ladder) (count : Binary64) :
    select (r :: l) count = if r.threshold ≤ count then .ok r.target else select l count := by
  unfold select
  by_cases h : r.threshold ≤ count
  · rw [if_pos h, List.find?_cons_of_pos (by simpa using h)]
  · rw [if_neg h, List.find?_cons_of_neg (by simpa using h)]

/-- A run of rungs with one target is reached when the lowest of them is. -/
theorem select_mergeFrom {rest : Ladder} (count : Binary64) : ∀ {r : Rung}, r.threshold.isNaN = false →
    (∀ x ∈ rest, x.threshold.isNaN = false) → (mergeFrom r rest).select count = select (r :: rest) count := by
  induction rest with
  | nil => exact fun _ _ => rfl
  | cons x rest ih =>
    intro r hr hrest
    obtain ⟨hx, hrest⟩ := List.forall_mem_cons.1 hrest
    unfold mergeFrom
    split
    · rename_i htarget
      rw [ih (Binary64.isNaN_min hr hx) hrest, select_cons, select_cons, select_cons, ← htarget]
      simp only [Binary64.min_le_iff hr hx]
      by_cases h : r.threshold ≤ count
      · simp [h]
      · simp [h]
    · rw [select_cons, ih hx hrest, select_cons r]

theorem select_merge {l : Ladder} (h : ∀ r ∈ l, r.threshold.isNaN = false) (count : Binary64) :
    l.merge.select count = l.select count := by
  cases l with
  | nil => rfl
  | cons r rest =>
    obtain ⟨hr, hrest⟩ := List.forall_mem_cons.1 h
    exact select_mergeFrom count hr hrest

/-- The merged rung has the target of its run, and the next one another. -/
theorem isChain_mergeFrom {rest : Ladder} : ∀ {r : Rung}, (mergeFrom r rest).IsChain (fun a b => a.target ≠ b.target) ∧
    ∃ x tail, mergeFrom r rest = x :: tail ∧ x.target = r.target := by
  induction rest with
  | nil => exact fun {r} => ⟨.singleton r, r, [], rfl, rfl⟩
  | cons y rest ih =>
    intro r
    unfold mergeFrom
    split
    · exact ih
    · rename_i hne
      obtain ⟨hchain, x, tail, heq, htarget⟩ := ih (r := y)
      refine ⟨?_, r, _, rfl, rfl⟩
      rw [heq] at hchain ⊢
      exact .cons_cons (by rw [htarget]; exact hne) hchain

theorem isChain_merge (l : Ladder) : l.merge.IsChain fun a b => a.target ≠ b.target := by
  cases l with
  | nil => exact .nil
  | cons r rest => exact isChain_mergeFrom.1

/-- Where no neighbours have one target there is nothing to merge. -/
theorem merge_of_isChain {l : Ladder} (h : l.IsChain fun a b => a.target ≠ b.target) : l.merge = l := by
  cases l with
  | nil => rfl
  | cons r rest =>
    change mergeFrom r rest = r :: rest
    induction rest generalizing r with
    | nil => rfl
    | cons y rest ih =>
      obtain ⟨hne, htail⟩ := List.isChain_cons_cons.1 h
      rw [mergeFrom, if_neg hne, ih y htail]

theorem descending_merge {l : Ladder} (h : Descending l) : Descending l.merge := by
  cases l with
  | nil => exact h
  | cons r rest => exact (descending_mergeFrom h).1

/-- Merging preserves every decision, leaves nothing to merge, and keeps the order of a ladder. -/
theorem merge_preserves (l : Ladder) (h : ∀ r ∈ l, r.threshold.isNaN = false) :
    (∀ count, l.merge.select count = l.select count) ∧ (l.merge.IsChain fun a b => a.target ≠ b.target) ∧
      l.merge.merge = l.merge ∧ (Descending l → Descending l.merge) :=
  ⟨select_merge h, isChain_merge l, merge_of_isChain (isChain_merge l), descending_merge⟩

/-- Three rungs, the first two with one target. -/
def threeRungs : Ladder := [⟨9, .terminate⟩, ⟨4, .terminate⟩, ⟨0, .pass⟩]

theorem threeRungs_preserved : threeRungs.merge = [⟨4, .terminate⟩, ⟨0, .pass⟩] ∧
    (∀ count, threeRungs.merge.select count = threeRungs.select count) ∧ Descending threeRungs.merge := by
  have hnumbers : ∀ r ∈ threeRungs, r.threshold.isNaN = false := by decide +kernel
  have hdescending : Descending threeRungs := by
    unfold Descending
    decide +kernel
  obtain ⟨hselect, -, -, hkeep⟩ := merge_preserves threeRungs hnumbers
  exact ⟨by decide +kernel, hselect, hkeep hdescending⟩

end Ladder

/-! ## Ranges of counts -/

namespace Condition

/-- A count within the range of a condition. -/
def Covers (c : Condition) (count : Binary64) : Prop :=
  ∃ start stop, c.range? = some (start, stop) ∧ start ≤ count ∧ count < stop

/-- A range, if there is one, of whole numbers, not empty and within the counts. -/
def Sound (c : Condition) : Prop :=
  ∀ start stop, c.range? = some (start, stop) →
    start.isWhole = true ∧ stop.isWhole = true ∧ 0 ≤ start ∧ start < stop ∧ stop ≤ .ofNat countLimit

/-- The first of some conditions that cannot be used. -/
def FirstUnsound (cs : List Condition) (c : Condition) : Prop :=
  ¬ c.Sound ∧ ∃ pre post, cs = pre ++ c :: post ∧ ∀ d ∈ pre, d.Sound

/-- No count is within the ranges of both. -/
def Apart (c d : Condition) : Prop := ∀ count, c.Covers count → ¬ d.Covers count

end Condition

namespace Binary64

/-- A whole number is compared as its whole part is, whatever the sign of a zero. -/
theorem key_of_isWhole {x : Binary64} (h : x.isWhole = true) : x.key = (finite x.toWhole).key := by
  cases x with
  | finite q =>
    have := value_eq_toWhole h
    rw [value] at this
    rw [← this]
  | negZero => simp [key, toWhole]
  | infinite n => cases h
  | nan => cases h

theorem isNaN_of_isWhole {x : Binary64} (h : x.isWhole = true) : x.isNaN = false := by
  cases x <;> first | rfl | cases h

theorem le_of_isWhole {x y : Binary64} (h : x.isWhole = true) : x ≤ y ↔ finite x.toWhole ≤ y := by
  cases hy : y.isNaN with
  | false => rw [le_iff_key (isNaN_of_isWhole h) hy, le_iff_key rfl hy, key_of_isWhole h]
  | true =>
    rw [eq_nan hy]
    exact iff_of_false (not_le_nan x) (not_le_nan _)

theorem lt_of_isWhole {x y : Binary64} (h : x.isWhole = true) : y < x ↔ y < finite x.toWhole := by
  cases hy : y.isNaN with
  | false => rw [lt_iff_key hy (isNaN_of_isWhole h), lt_iff_key hy rfl, key_of_isWhole h]
  | true =>
    rw [eq_nan hy]
    exact iff_of_false (not_nan_lt x) (not_nan_lt _)

end Binary64

namespace CountRange

/-- A count within a range. -/
def Holds (range : CountRange) (count : Binary64) : Prop := .finite range.start ≤ count ∧ count < .finite range.stop

theorem ofBounds?_eq_some {start stop : Binary64} {t : Target} {range : CountRange} :
    ofBounds? start stop t = some range ↔
      (start.isWhole = true ∧ stop.isWhole = true ∧ 0 ≤ start ∧ start < stop ∧ stop ≤ .ofNat Condition.countLimit) ∧
        range = ⟨start.toWhole.toNat, stop.toWhole.toNat, t⟩ := by
  unfold ofBounds?
  split
  · rename_i hcond
    simp only [Bool.and_eq_true, decide_eq_true_eq] at hcond
    obtain ⟨⟨⟨⟨hs, ht⟩, h0⟩, hlimit⟩, hlt⟩ := hcond
    rw [Option.some.injEq, eq_comm]
    exact ⟨fun h => ⟨⟨hs, ht, h0, hlt, hlimit⟩, h⟩, And.right⟩
  · rename_i hcond
    simp only [Bool.and_eq_true, decide_eq_true_eq] at hcond
    refine ⟨nofun, fun ⟨⟨hs, ht, h0, hlt, hlimit⟩, _⟩ => ?_⟩
    exact absurd ⟨⟨⟨⟨hs, ht⟩, h0⟩, hlimit⟩, hlt⟩ hcond

theorem sound_iff {c : Condition} : c.Sound ↔ (c.range?.isSome = true → (ofCondition? c).isSome = true) := by
  unfold Condition.Sound ofCondition?
  cases c.range? with
  | none => simp
  | some p =>
    obtain ⟨start, stop⟩ := p
    simp only [Option.some.injEq, Prod.mk.injEq, Option.isSome_some, true_imp_iff, Option.bind_some,
      Option.isSome_iff_exists, ofBounds?_eq_some]
    constructor
    · intro h
      exact ⟨_, h start stop ⟨rfl, rfl⟩, rfl⟩
    · rintro ⟨-, h, -⟩ _ _ ⟨rfl, rfl⟩
      exact h

variable {c : Condition} {range : CountRange} {count : Binary64}

theorem target_of_ofCondition? (h : ofCondition? c = some range) : range.target = c.target := by
  obtain ⟨p, -, hbounds⟩ := Option.bind_eq_some_iff.1 h
  rw [(ofBounds?_eq_some.1 hbounds).2]

/-- The range of a condition covers the same counts. -/
theorem covers_iff (h : ofCondition? c = some range) : c.Covers count ↔ range.Holds count := by
  obtain ⟨⟨start, stop⟩, hrange, hbounds⟩ := Option.bind_eq_some_iff.1 h
  obtain ⟨⟨hs, ht, h0, hlt, -⟩, rfl⟩ := ofBounds?_eq_some.1 hbounds
  have h0' : 0 ≤ start.toWhole := by
    rw [Binary64.zero_eq, Binary64.le_iff_value rfl (Binary64.isFinite_of_isWhole hs),
      Binary64.value_eq_toWhole hs] at h0
    exact Int.cast_nonneg_iff.1 h0
  have hlt' : start.toWhole < stop.toWhole := by
    rw [Binary64.lt_iff_value (Binary64.isFinite_of_isWhole hs) (Binary64.isFinite_of_isWhole ht),
      Binary64.value_eq_toWhole hs, Binary64.value_eq_toWhole ht] at hlt
    exact Int.cast_lt.1 hlt
  have hcast : ∀ {n : Int}, 0 ≤ n → ((n.toNat : Rat)) = n := fun hn => by
    rw [← Int.cast_natCast, Int.toNat_of_nonneg hn]
  unfold Condition.Covers Holds
  simp only [hrange, Option.some.injEq, Prod.mk.injEq, hcast h0', hcast (h0'.trans hlt'.le)]
  rw [← Binary64.le_of_isWhole hs, ← Binary64.lt_of_isWhole ht]
  constructor
  · rintro ⟨_, _, ⟨rfl, rfl⟩, hcount⟩
    exact hcount
  · exact fun hcount => ⟨start, stop, ⟨rfl, rfl⟩, hcount⟩

/-- A condition that can be used and has no range covers nothing. -/
theorem not_covers (hsound : c.Sound) (h : ofCondition? c = none) : ¬ c.Covers count := by
  rintro ⟨start, stop, hrange, -⟩
  have hsome := sound_iff.1 hsound (by rw [hrange]; rfl)
  rw [h] at hsome
  cases hsome

/-- Ranges that are not empty have no count in common exactly if one of them ends before the other one starts. -/
theorem apart_iff {a b : CountRange} (ha : a.start < a.stop) (hb : b.start < b.stop) :
    (∀ count, a.Holds count → ¬ b.Holds count) ↔ a.stop ≤ b.start ∨ b.stop ≤ a.start := by
  constructor
  · intro h
    by_contra hno
    have hmax := h (.finite (max a.start b.start : Nat))
    simp only [Holds, Binary64.finite_le, Binary64.finite_lt, Nat.cast_le, Nat.cast_lt] at hmax
    omega
  · rintro h count ⟨ha1, ha2⟩ ⟨hb1, hb2⟩
    have hlt : ∀ {m n : Nat}, Binary64.finite m ≤ count → count < .finite n → m < n := fun h1 h2 => by
      obtain ⟨-, hnan⟩ := Binary64.isNaN_of_le h1
      rw [Binary64.le_iff_key rfl hnan] at h1
      rw [Binary64.lt_iff_key hnan rfl] at h2
      exact Nat.cast_lt.1 (Binary64.finite_lt.1 ((Binary64.lt_iff_key rfl rfl).2 (h1.trans_lt h2)))
    have := hlt ha1 hb2
    have := hlt hb1 ha2
    omega

end CountRange

/-! ## Ladders of ranges -/

namespace Ladder

variable {jump : String} {otherwise : Target}

/-- Ranges that come with descending stops make a ladder exactly if each of them ends where the one before it starts, or
below. -/
theorem exists_descend_iff {ranges : List CountRange} : ∀ {current : Nat}, (∀ r ∈ ranges, r.start < r.stop) →
    (∀ r ∈ ranges, r.stop ≤ current) → (ranges.Pairwise fun a b => b.stop ≤ a.stop) →
    ((∃ l, descend jump otherwise current ranges = .ok l) ↔
      ranges.Pairwise fun a b => a.stop ≤ b.start ∨ b.stop ≤ a.start) := by
  induction ranges with
  | nil => exact fun _ _ _ => ⟨fun _ => .nil, fun _ => ⟨_, rfl⟩⟩
  | cons range rest ih =>
    intro current hranges hcurrent hsorted
    obtain ⟨hrange, hranges⟩ := List.forall_mem_cons.1 hranges
    obtain ⟨hstop, -⟩ := List.forall_mem_cons.1 hcurrent
    obtain ⟨hstops, hsorted⟩ := List.pairwise_cons.1 hsorted
    simp only [descend_cons_eq_ok, List.pairwise_cons]
    constructor
    · rintro ⟨-, -, below, hbelow, -⟩
      have hbound := (stops_of_descend hranges hbelow).1
      exact ⟨fun r hr => .inr (hbound r hr), (ih hranges hbound hsorted).1 ⟨below, hbelow⟩⟩
    · rintro ⟨hapart, hrest⟩
      obtain ⟨below, hbelow⟩ := (ih hranges (fun r hr => (hapart r hr).resolve_left fun hle => by
        have h1 := hranges r hr
        have h2 := hstops r hr
        omega) hsorted).2 hrest
      exact ⟨_, hstop, below, hbelow, rfl⟩

/-- What is wrong with ranges that make no ladder is said of one of them. -/
theorem exists_of_descend_error {ranges : List CountRange} {f : Fault} : ∀ {current : Nat},
    descend jump otherwise current ranges = .error f → ∃ range ∈ ranges,
      f = ⟨.overlappingConditions, some jump,
        s!"Jump '{jump}' has overlapping conditions at [{range.start}, {range.stop})"⟩ := by
  induction ranges with
  | nil => exact nofun
  | cons range rest ih =>
    intro current h
    unfold descend at h
    split at h
    · cases h
      exact ⟨range, List.mem_cons_self, rfl⟩
    · cases hrest : descend jump otherwise range.start rest with
      | ok below =>
        rw [hrest] at h
        cases h
      | error e =>
        rw [hrest] at h
        cases h
        obtain ⟨r, hr, heq⟩ := ih hrest
        exact ⟨r, List.mem_cons_of_mem _ hr, heq⟩

/-- A count below the top selects the target of its range, and the other one if it has none. -/
theorem select_of_descend {ranges : List CountRange} {count : Binary64} (hcount : 0 ≤ count) :
    ∀ {current : Nat} {l : Ladder}, current ≤ Condition.countLimit → (∀ range ∈ ranges, range.start < range.stop) →
      descend jump otherwise current ranges = .ok l → count < .finite current →
      (∀ range ∈ ranges, range.Holds count → l.select count = .ok range.target) ∧
        ((∀ range ∈ ranges, ¬ range.Holds count) → l.select count = .ok otherwise) := by
  have hnan := (Binary64.isNaN_of_le hcount).2
  have hnat : ∀ {n : Nat}, n ≤ Condition.countLimit → Binary64.ofNat n = .finite n := fun {n} hn =>
    Binary64.ofNat_eq (hn.trans (by decide))
  have hle : ∀ {m n : Nat}, m ≤ n → Binary64.finite n ≤ count → Binary64.finite m ≤ count := fun hmn h => by
    rw [Binary64.le_iff_key rfl hnan] at h ⊢
    exact le_trans ((Binary64.le_iff_key rfl rfl).1 (Binary64.finite_le.2 (Nat.cast_le.2 hmn))) h
  have hnot : ∀ {n : Nat}, ¬ Binary64.finite n ≤ count ↔ count < .finite n := fun {n} => Binary64.not_le rfl hnan
  induction ranges with
  | nil =>
    intro current l _ _ h hlt
    refine ⟨by simp, fun _ => ?_⟩
    cases h
    have hpos : 0 < current := by
      by_contra hzero
      obtain rfl : current = 0 := by omega
      rw [Binary64.zero_eq, ← Nat.cast_zero] at hcount
      exact hnot.2 hlt hcount
    rw [if_pos hpos, select_cons, if_pos hcount]
  | cons range rest ih =>
    intro current l hcurrent hranges h hlt
    obtain ⟨hrange, hrest⟩ := List.forall_mem_cons.1 hranges
    obtain ⟨hstop, below, hbelow, rfl⟩ := descend_cons_eq_ok.1 h
    -- the ranges that follow are below this one
    have hlower : ∀ r ∈ rest, r.Holds count → count < .finite range.start := fun r hr hin => by
      refine hnot.1 fun hge => hnot.2 hin.2 (hle ((stops_of_descend hrest hbelow).1 r hr) hge)
    by_cases hover : Binary64.finite range.stop ≤ count
    · have hgap : range.stop < current := by
        by_contra hge
        exact hnot.2 hlt (hle (by omega) hover)
      have hout : ∀ r ∈ range :: rest, ¬ r.Holds count := by
        refine List.forall_mem_cons.2 ⟨fun hin => hnot.2 hin.2 hover, fun r hr hin => ?_⟩
        exact hnot.2 (hlower r hr hin) (hle hrange.le hover)
      refine ⟨fun r hr hin => absurd hin (hout r hr), fun _ => ?_⟩
      rw [if_pos hgap, List.singleton_append, select_cons, hnat (by omega), if_pos hover]
    · have hselect : select ((if range.stop < current then [⟨.ofNat range.stop, otherwise⟩] else []) ++
          ⟨.ofNat range.start, range.target⟩ :: below) count =
          if Binary64.finite range.start ≤ count then .ok range.target else select below count := by
        rw [← hnat (n := range.start) (by omega), ← select_cons ⟨.ofNat range.start, range.target⟩]
        split
        · rw [List.singleton_append, select_cons, hnat (by omega), if_neg hover]
        · rfl
      rw [hselect]
      by_cases hin : Binary64.finite range.start ≤ count
      · rw [if_pos hin]
        refine ⟨List.forall_mem_cons.2 ⟨fun _ => rfl, fun r hr hr' => ?_⟩, fun hall => ?_⟩
        · exact absurd hin (hnot.2 (hlower r hr hr'))
        · exact absurd ⟨hin, hnot.1 hover⟩ (hall range List.mem_cons_self)
      · rw [if_neg hin]
        obtain ⟨hsome, hnone⟩ := ih (by omega) hrest hbelow (hnot.1 hin)
        exact ⟨List.forall_mem_cons.2 ⟨fun hr => absurd hr.1 hin, hsome⟩, fun hall => hnone fun r hr =>
          hall r (List.mem_cons_of_mem _ hr)⟩

/-- The threshold of a rung, as a count, selects that rung. -/
theorem find?_threshold {l : Ladder} (h : Descending l) {r : Rung} (hr : r ∈ l) (hnan : r.threshold.isNaN = false) :
    l.find? (fun x => decide (x.threshold ≤ r.threshold)) = some r := by
  induction l with
  | nil => cases hr
  | cons x l ih =>
    obtain ⟨hx, hl⟩ := List.pairwise_cons.1 h
    rcases List.mem_cons.1 hr with rfl | hr
    · exact List.find?_cons_of_pos (by simp [Binary64.le_iff_key hnan hnan])
    · have hlt := hx r hr
      rw [List.find?_cons_of_neg, ih hl hr]
      rw [decide_eq_true_eq, Binary64.not_le (Binary64.isNaN_of_lt hlt).2 hnan]
      exact hlt

end Ladder

/-! ## Conditions of a jump -/

theorem CountRange.ofConditions_append_otherwise (jump : String) (cs : List Condition) (t : Target) :
    ofConditions jump (cs ++ [.otherwise t]) = ofConditions jump cs := by
  induction cs with
  | nil => rfl
  | cons c cs ih =>
    rw [List.cons_append, ofConditions, ofConditions, ih]

theorem Condition.FirstUnsound.cons {cs : List Condition} {c d : Condition} (h : FirstUnsound cs c) (hd : d.Sound) :
    FirstUnsound (d :: cs) c := by
  obtain ⟨hc, pre, post, rfl, hpre⟩ := h
  exact ⟨hc, d :: pre, post, rfl, List.forall_mem_cons.2 ⟨hd, hpre⟩⟩

/-- The first condition whose range cannot be used is the one that is named. -/
theorem CountRange.exists_of_ofConditions_error {jump : String} {cs : List Condition} {f : Fault}
    (h : ofConditions jump cs = .error f) :
    ∃ c start stop, Condition.FirstUnsound cs c ∧ c.range? = some (start, stop) ∧
      f = ⟨.invalidDefinition, some jump, s!"Jump '{jump}' has an invalid count range [{start}, {stop})"⟩ := by
  induction cs with
  | nil => cases h
  | cons c cs ih =>
    rw [ofConditions] at h
    cases hrange : c.range? with
    | none =>
      simp only [hrange] at h
      obtain ⟨d, start, stop, hd, hrest⟩ := ih h
      exact ⟨d, start, stop, hd.cons (sound_iff.2 (by simp [hrange])), hrest⟩
    | some p =>
      obtain ⟨start, stop⟩ := p
      have hiff : c.Sound ↔ (ofBounds? start stop c.target).isSome = true := by
        rw [sound_iff, ofCondition?, hrange]
        simp
      cases hbounds : ofBounds? start stop c.target with
      | none =>
        simp only [hrange, hbounds] at h
        cases h
        exact ⟨c, start, stop, ⟨by simp [hiff, hbounds], [], cs, rfl, by simp⟩, hrange, rfl⟩
      | some range =>
        simp only [hrange, hbounds] at h
        cases hrest : ofConditions jump cs with
        | ok ranges =>
          rw [hrest] at h
          cases h
        | error e =>
          rw [hrest] at h
          cases h
          obtain ⟨d, start', stop', hd, hf⟩ := ih hrest
          exact ⟨d, start', stop', hd.cons (by simp [hiff, hbounds]), hf⟩

namespace Jump

variable {j : Jump}

/-- The conditions as they are listed. A jump that tests no count goes one way for all of them. -/
def conditions (j : Jump) : List Condition :=
  match j.action with
  | .goto destination => [.otherwise (.destination destination)]
  | .terminate => [.otherwise .terminate]
  | .branch _ conditions => conditions

/-- The target of the counts that no range covers. -/
def fallback (j : Jump) : Target := ((j.conditions.find? Condition.isOtherwise).map Condition.target).getD .pass

/-- One `otherwise` at most, and ranges that can be used and have no count in common. -/
structure Regular (j : Jump) : Prop where
  single : j.conditions.countP Condition.isOtherwise ≤ 1
  sound : ∀ c ∈ j.conditions, c.Sound
  apart : j.conditions.Pairwise Condition.Apart

/-- What is wrong with a jump: its `otherwise` conditions are looked at first, then one range after the other, and what
the ranges have in common at last. -/
inductive Objection (j : Jump) : Fault → Prop
  | otherwise (hmany : 1 < j.conditions.countP Condition.isOtherwise) :
    Objection j ⟨.invalidDefinition, some j.name,
      s!"Jump '{j.name}' has {j.conditions.countP Condition.isOtherwise} else conditions"⟩
  | range {c : Condition} {start stop : Binary64} (hsingle : j.conditions.countP Condition.isOtherwise ≤ 1)
    (hfirst : Condition.FirstUnsound j.conditions c) (hrange : c.range? = some (start, stop)) :
    Objection j ⟨.invalidDefinition, some j.name,
      s!"Jump '{j.name}' has an invalid count range [{start}, {stop})"⟩
  | overlap {c : Condition} {range : CountRange} (hsingle : j.conditions.countP Condition.isOtherwise ≤ 1)
    (hsound : ∀ c ∈ j.conditions, c.Sound) (hoverlap : ¬ j.conditions.Pairwise Condition.Apart)
    (hc : c ∈ j.conditions) (hrange : CountRange.ofCondition? c = some range) :
    Objection j ⟨.overlappingConditions, some j.name,
      s!"Jump '{j.name}' has overlapping conditions at [{range.start}, {range.stop})"⟩

/-- A ladder that takes every count where the conditions say, without a rung that no count takes. -/
structure Decides (j : Jump) (l : Ladder) : Prop where
  descending : l.Descending
  limit : ∀ r ∈ l, r.threshold < .finite Condition.countLimit
  last : ∃ r, l.getLast? = some r ∧ r.threshold = .finite 0
  covered : ∀ c ∈ j.conditions, ∀ count, c.Covers count → l.select count = .ok c.target
  uncovered : ∀ count, 0 ≤ count → count < .finite Condition.countLimit → (∀ c ∈ j.conditions, ¬ c.Covers count) →
    l.select count = .ok j.fallback
  used : ∀ r ∈ l, ∃ n < Condition.countLimit, l.find? (fun x => decide (x.threshold ≤ .finite (n : Nat))) = some r

/-- Several `otherwise` conditions are refused before anything else is looked at. -/
theorem ladder_of_many (h : 1 < j.conditions.countP Condition.isOtherwise) :
    j.ladder = .error ⟨.invalidDefinition, some j.name,
      s!"Jump '{j.name}' has {j.conditions.countP Condition.isOtherwise} else conditions"⟩ := by
  have hrules : j.rules = .error ⟨.invalidDefinition, some j.name,
      s!"Jump '{j.name}' has {j.conditions.countP Condition.isOtherwise} else conditions"⟩ := by
    obtain ⟨name, time, action⟩ := j
    cases action with
    | goto destination => exact absurd h (lt_irrefl 1)
    | terminate => exact absurd h (lt_irrefl 1)
    | branch window cs =>
      simp only [rules, conditions] at h ⊢
      generalize cs.countP Condition.isOtherwise = n at h ⊢
      match n, h with
      | n + 2, _ => rfl
  rw [ladder, hrules]
  rfl

/-- With one `otherwise` at most there are rules: the conditions, with an `otherwise` added where there was none. -/
theorem exists_rules (h : j.conditions.countP Condition.isOtherwise ≤ 1) : ∃ rules, j.rules = .ok rules ∧
    CountRange.ofConditions j.name rules = CountRange.ofConditions j.name j.conditions ∧
    ∃ c, rules.reverse.find? Condition.isOtherwise = some c ∧ c.target = j.fallback := by
  obtain ⟨name, time, action⟩ := j
  cases action with
  | goto destination => exact ⟨_, rfl, rfl, _, rfl, rfl⟩
  | terminate => exact ⟨_, rfl, rfl, _, rfl, rfl⟩
  | branch window cs =>
    simp only [rules, fallback, conditions] at h ⊢
    rcases Nat.le_one_iff_eq_zero_or_eq_one.1 h with hzero | hone
    · rw [hzero, List.find?_eq_none.2 (List.countP_eq_zero.1 hzero)]
      refine ⟨_, rfl, CountRange.ofConditions_append_otherwise _ _ _, .otherwise .pass, ?_, rfl⟩
      rw [List.reverse_append]
      rfl
    · obtain ⟨o, ho⟩ := List.length_eq_one_iff.1 (List.countP_eq_length_filter.symm.trans hone)
      rw [hone, ← List.head?_filter, ho]
      refine ⟨_, rfl, rfl, o, ?_, rfl⟩
      rw [← List.head?_filter, List.filter_reverse, ho]
      rfl

/-- With one `otherwise` at most, a jump has the ladder of its ranges. -/
theorem ladder_eq (h : j.conditions.countP Condition.isOtherwise ≤ 1) :
    j.ladder = CountRange.ofConditions j.name j.conditions >>= fun ranges =>
      Ladder.descend j.name j.fallback Condition.countLimit
        (Sort.sortBy (fun a b => decide (b.stop ≤ a.stop)) ranges) := by
  obtain ⟨rules, hrules, hranges, c, hfind, htarget⟩ := exists_rules h
  rw [← hranges, ← htarget, ladder, hrules]
  refine congrArg (CountRange.ofConditions j.name rules >>= ·) (funext fun ranges => ?_)
  rw [hfind]

/-- The ranges of the conditions, with descending stops. -/
def ranges (j : Jump) : List CountRange :=
  Sort.sortBy (fun a b => decide (b.stop ≤ a.stop)) (j.conditions.filterMap CountRange.ofCondition?)

theorem mem_ranges {range : CountRange} :
    range ∈ j.ranges ↔ ∃ c ∈ j.conditions, CountRange.ofCondition? c = some range := by
  rw [ranges, Sort.mem_sortBy, List.mem_filterMap]

theorem start_lt_stop_of_mem {range : CountRange} (h : range ∈ j.ranges) :
    range.start < range.stop ∧ range.stop ≤ Condition.countLimit := by
  obtain ⟨c, -, hc⟩ := mem_ranges.1 h
  obtain ⟨p, -, hbounds⟩ := Option.bind_eq_some_iff.1 hc
  exact CountRange.start_lt_stop_of_ofBounds? hbounds

theorem sorted_ranges (j : Jump) : j.ranges.Pairwise fun a b => b.stop ≤ a.stop := by
  refine (Sort.pairwise_sortBy ?_ ?_ _).imp fun h => of_decide_eq_true h
  · intro a b
    simp only [decide_eq_true_eq]
    omega
  · intro a b c
    simp only [decide_eq_true_eq]
    omega

theorem pairwise_ranges_iff (h : ∀ c ∈ j.conditions, c.Sound) :
    (j.ranges.Pairwise fun a b => a.stop ≤ b.start ∨ b.stop ≤ a.start) ↔ j.conditions.Pairwise Condition.Apart := by
  rw [ranges, (Sort.perm_sortBy _ _).pairwise_iff Or.symm, List.pairwise_filterMap]
  refine List.Pairwise.iff_of_mem fun {c d} hc hd => ⟨fun hranges count hcovers hcovers' => ?_,
    fun hapart a ha b hb => ?_⟩
  · cases ha : CountRange.ofCondition? c with
    | none => exact CountRange.not_covers (h c hc) ha hcovers
    | some a =>
      cases hb : CountRange.ofCondition? d with
      | none => exact CountRange.not_covers (h d hd) hb hcovers'
      | some b =>
        have hne := start_lt_stop_of_mem (mem_ranges.2 ⟨c, hc, ha⟩)
        have hne' := start_lt_stop_of_mem (mem_ranges.2 ⟨d, hd, hb⟩)
        exact (CountRange.apart_iff hne.1 hne'.1).2 (hranges a ha b hb) count ((CountRange.covers_iff ha).1 hcovers)
          ((CountRange.covers_iff hb).1 hcovers')
  · have hne := start_lt_stop_of_mem (mem_ranges.2 ⟨c, hc, ha⟩)
    have hne' := start_lt_stop_of_mem (mem_ranges.2 ⟨d, hd, hb⟩)
    refine (CountRange.apart_iff hne.1 hne'.1).1 fun count hholds hholds' => ?_
    exact hapart count ((CountRange.covers_iff ha).2 hholds) ((CountRange.covers_iff hb).2 hholds')

section Sound

variable (hsingle : j.conditions.countP Condition.isOtherwise ≤ 1) (hsound : ∀ c ∈ j.conditions, c.Sound)

include hsingle hsound

theorem ladder_of_sound : j.ladder = Ladder.descend j.name j.fallback Condition.countLimit j.ranges := by
  have hok : CountRange.ofConditions j.name j.conditions = .ok (j.conditions.filterMap CountRange.ofCondition?) :=
    CountRange.ofConditions_eq_ok.2 ⟨fun c hc => CountRange.sound_iff.1 (hsound c hc), rfl⟩
  rw [ladder_eq hsingle, hok]
  rfl

theorem exists_ladder_iff : (∃ l, j.ladder = .ok l) ↔ j.conditions.Pairwise Condition.Apart := by
  rw [ladder_of_sound hsingle hsound, Ladder.exists_descend_iff (fun r hr => (start_lt_stop_of_mem hr).1)
    (fun r hr => (start_lt_stop_of_mem hr).2) (sorted_ranges j), pairwise_ranges_iff hsound]

/-- The ladder of ranges decides as the conditions of the jump do. -/
theorem decides_of_ladder {l : Ladder} (h : j.ladder = .ok l) : j.Decides l := by
  rw [ladder_of_sound hsingle hsound] at h
  have hne : ∀ r ∈ j.ranges, r.start < r.stop := fun r hr => (start_lt_stop_of_mem hr).1
  obtain ⟨hdescending, hlimit⟩ := Ladder.descending_of_descend le_rfl hne h
  have hground : l.Grounded := (Ladder.grounded_of_descend le_rfl hne h).resolve_left fun h0 => absurd h0.1 (by decide)
  refine ⟨hdescending, hlimit, hground.last, fun c hc count hcovers => ?_, fun count h0 hlt hnone => ?_, fun r hr => ?_⟩
  · cases hrange : CountRange.ofCondition? c with
    | none => exact absurd hcovers (CountRange.not_covers (hsound c hc) hrange)
    | some range =>
      have hmem := mem_ranges.2 ⟨c, hc, hrange⟩
      have hholds := (CountRange.covers_iff hrange).1 hcovers
      obtain ⟨-, hnan⟩ := Binary64.isNaN_of_le hholds.1
      have h0 : 0 ≤ count := by
        rw [Binary64.zero_eq, ← Nat.cast_zero, Binary64.le_iff_key rfl hnan]
        refine le_trans ?_ ((Binary64.le_iff_key rfl hnan).1 hholds.1)
        exact (Binary64.le_iff_key rfl rfl).1 (Binary64.finite_le.2 (Nat.cast_le.2 (Nat.zero_le _)))
      have hlt : count < .finite Condition.countLimit := by
        rw [Binary64.lt_iff_key hnan rfl]
        refine lt_of_lt_of_le ((Binary64.lt_iff_key hnan rfl).1 hholds.2) ?_
        exact (Binary64.le_iff_key rfl rfl).1 (Binary64.finite_le.2 (Nat.cast_le.2 (start_lt_stop_of_mem hmem).2))
      rw [← CountRange.target_of_ofCondition? hrange]
      exact (Ladder.select_of_descend h0 le_rfl hne h hlt).1 range hmem hholds
  · refine (Ladder.select_of_descend h0 le_rfl hne h hlt).2 fun range hrange hholds => ?_
    obtain ⟨c, hc, hcrange⟩ := mem_ranges.1 hrange
    exact hnone c hc ((CountRange.covers_iff hcrange).2 hholds)
  · obtain ⟨n, hn⟩ := hground.natural r hr
    have hlt := hlimit r hr
    rw [hn, Binary64.finite_lt, Nat.cast_lt] at hlt
    refine ⟨n, hlt, ?_⟩
    rw [← hn]
    exact Ladder.find?_threshold hdescending hr (by rw [hn]; rfl)

end Sound

/-- Whatever a jump is refused for is wrong with it. -/
theorem objection_of_ladder {f : Fault} (h : j.ladder = .error f) : j.Objection f := by
  by_cases hsingle : j.conditions.countP Condition.isOtherwise ≤ 1
  · cases hranges : CountRange.ofConditions j.name j.conditions with
    | error e =>
      rw [ladder_eq hsingle, hranges] at h
      cases h
      obtain ⟨c, start, stop, hfirst, hrange, rfl⟩ := CountRange.exists_of_ofConditions_error hranges
      exact .range hsingle hfirst hrange
    | ok ranges =>
      have hsound : ∀ c ∈ j.conditions, c.Sound := fun c hc =>
        CountRange.sound_iff.2 ((CountRange.ofConditions_eq_ok.1 hranges).1 c hc)
      have hoverlap : ¬ j.conditions.Pairwise Condition.Apart := fun hapart => by
        obtain ⟨l, hl⟩ := (exists_ladder_iff hsingle hsound).2 hapart
        cases h.symm.trans hl
      rw [ladder_of_sound hsingle hsound] at h
      obtain ⟨range, hrange, rfl⟩ := Ladder.exists_of_descend_error h
      obtain ⟨c, hc, hcrange⟩ := mem_ranges.1 hrange
      exact .overlap hsingle hsound hoverlap hc hcrange
  · have hmany := not_le.1 hsingle
    rw [ladder_of_many hmany] at h
    cases h
    exact .otherwise hmany

theorem regular_of_ladder {l : Ladder} (h : j.ladder = .ok l) : j.Regular := by
  have hsingle : j.conditions.countP Condition.isOtherwise ≤ 1 := by
    by_contra hmany
    cases (ladder_of_many (not_le.1 hmany)).symm.trans h
  have hsound : ∀ c ∈ j.conditions, c.Sound := fun c hc => by
    rw [ladder_eq hsingle] at h
    obtain ⟨ranges, hranges, -⟩ := Except.bind_eq_ok.1 h
    exact CountRange.sound_iff.2 ((CountRange.ofConditions_eq_ok.1 hranges).1 c hc)
  exact ⟨hsingle, hsound, (exists_ladder_iff hsingle hsound).1 ⟨l, h⟩⟩

/-- A jump has a ladder exactly if it is regular; the ladder decides as the conditions say, and a jump that has none is
refused for the first thing that is wrong with it. -/
theorem ladder_means (j : Jump) :
    ((∃ l, j.ladder = .ok l) ↔ j.Regular) ∧ (∀ l, j.ladder = .ok l → j.Decides l) ∧
      ∀ f, j.ladder = .error f → j.Objection f := by
  refine ⟨⟨fun ⟨l, hl⟩ => regular_of_ladder hl, fun h => ?_⟩, fun l hl => ?_, fun f => objection_of_ladder⟩
  · exact (exists_ladder_iff h.single h.sound).2 h.apart
  · have hregular := regular_of_ladder hl
    exact decides_of_ladder hregular.single hregular.sound hl

-- Ranges that touch, listed from below, and nothing said of the counts above them.
example : (Jump.mk "j" (.absolute 5) (.branch "w"
      [.between 0 10 .terminate, .between 10 100 (.destination (.start "v"))])).ladder =
    .ok [⟨100, .pass⟩, ⟨10, .destination (.start "v")⟩, ⟨0, .terminate⟩] := by
  decide +kernel

end Jump

end PulseSequencer
