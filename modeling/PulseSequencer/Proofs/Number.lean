import Mathlib
import PulseSequencer.Binary64.Arithmetic
import PulseSequencer.Code.Word

/-!
# Whole numbers among binary64 numbers

* `Binary64.ofInt_eq`, `Binary64.ofNat_of_limit_lt` : integers up to `2 ^ 53` are exact, larger ones stay large;
* `Binary64.exists_ofNat_eq`, `Binary64.exists_lt_countBelow` : rounding twice is rounding once;
* `Binary64.value_eq_toWhole`, `Binary64.toWhole_mem` : a whole number is its whole part, within the same bounds;
* `Binary64.duration_iff` : the integers that the encoder takes as a WAIT duration.
-/

namespace PulseSequencer.Binary64

/-! ## Order -/

/-- Finite numbers are ordered as their values. -/
theorem lt_iff_value {x y : Binary64} (hx : x.isFinite = true) (hy : y.isFinite = true) :
    x < y ↔ x.value < y.value := by
  cases x <;> cases y <;> first | cases hx; done | cases hy; done | exact Iff.rfl

theorem le_iff_value {x y : Binary64} (hx : x.isFinite = true) (hy : y.isFinite = true) :
    x ≤ y ↔ x.value ≤ y.value := by
  have hnan : x.isNaN = false ∧ y.isNaN = false := by
    constructor
    · cases x <;> first | rfl | cases hx
    · cases y <;> first | rfl | cases hy
  have : x ≤ y ↔ ¬ y < x := by
    change (!x.isNaN && !y.isNaN && !(y.lt x)) = true ↔ ¬ y.lt x = true
    simp [hnan]
  rw [this, lt_iff_value hy hx, not_lt]

theorem not_infinite_lt (y : Binary64) : ¬ infinite false < y := by
  intro h
  cases y with
  | infinite n => cases n <;> cases h
  | _ => cases h

theorem not_lt_infinite (x : Binary64) : ¬ x < infinite true := by
  intro h
  cases x with
  | infinite n => cases n <;> cases h
  | _ => cases h

theorem not_lt_nan (x : Binary64) : ¬ x < nan := by
  intro h
  cases x <;> cases h

protected theorem lt_trans {x y z : Binary64} (h : x < y) (h' : y < z) : x < z := by
  cases x with
  | nan => cases h
  | infinite n =>
    cases n
    · exact absurd h (not_infinite_lt y)
    · cases z with
      | nan => exact absurd h' (not_lt_nan y)
      | infinite m =>
        cases m
        · rfl
        · exact absurd h' (not_lt_infinite y)
      | _ => rfl
  | finite _ | negZero =>
    cases z with
    | nan => exact absurd h' (not_lt_nan y)
    | infinite m =>
      cases m
      · rfl
      · exact absurd h' (not_lt_infinite y)
    | finite _ | negZero =>
      cases y with
      | nan => exact absurd h (not_lt_nan _)
      | infinite m =>
        cases m
        · exact absurd h' (not_infinite_lt _)
        · exact absurd h (not_lt_infinite _)
      | finite _ | negZero =>
        rw [lt_iff_value rfl rfl] at h h' ⊢
        exact h.trans h'

protected theorem lt_irrefl (x : Binary64) : ¬ x < x := by
  intro h
  cases x with
  | nan => cases h
  | infinite n => cases n <;> cases h
  | finite _ | negZero => exact lt_irrefl _ ((lt_iff_value rfl rfl).1 h)

theorem finite_lt {a b : Rat} : finite a < finite b ↔ a < b := Iff.rfl

theorem finite_le {a b : Rat} : finite a ≤ finite b ↔ a ≤ b := le_iff_value rfl rfl

/-! ## Integers -/

theorem ofInt_eq {n : Int} (h : n.natAbs ≤ significandLimit) : ofInt n = finite n := by
  rw [ofInt, ofRat, if_pos ⟨Rat.den_intCast n, by rwa [Rat.num_intCast]⟩]

theorem ofNat_eq {n : Nat} (h : n ≤ significandLimit) : ofNat n = finite n := by
  rw [ofNat, ofInt_eq (by simpa using h), Int.cast_natCast]

theorem zero_eq : (0 : Binary64) = finite 0 := ofNat_eq (by decide)

theorem one_eq : (1 : Binary64) = finite 1 := by
  rw [show (1 : Binary64) = ofNat 1 from rfl, ofNat_eq (by decide), Nat.cast_one]

theorem le_roundDiv (num den : Nat) : num / den ≤ roundDiv num den := by
  simp only [roundDiv]
  split_ifs <;> omega

theorem leadingExponent_one {n : Nat} (h : n ≠ 0) : leadingExponent n 1 = n.log2 := by
  have hle : ¬ n < 2 ^ n.log2 := Nat.not_lt.2 (Nat.log2_self_le h)
  have hone : Nat.log2 1 = 0 := by decide
  simp [leadingExponent, hle, hone]

theorem roundDiv_le (num den : Nat) : roundDiv num den ≤ num / den + 1 := by
  simp only [roundDiv]
  split_ifs <;> omega

theorem ofNat_eq_roundMagnitude {n : Nat} (h : significandLimit < n) : ofNat n = roundMagnitude false n 1 := by
  have hneg : ¬ (n : Int) < 0 := by omega
  rw [ofNat, ofInt, ofRat, if_neg (fun h' => by simp at h'; omega)]
  simp [hneg]

/-- Numbers of 53 binary digits are exact, wherever the digits stand. -/
theorem ofNat_shifted {a u : Nat} (hlow : 2 ^ 52 ≤ a) (hhigh : a < 2 ^ 53) (hu : u ≤ 971) :
    ofNat (a * 2 ^ u) = finite (a * 2 ^ u : Nat) := by
  by_cases hexact : a * 2 ^ u ≤ significandLimit
  · exact ofNat_eq hexact
  have hne : a ≠ 0 := by
    rintro rfl
    exact absurd hlow (by decide)
  have hlimit : a ≠ significandLimit := fun h => absurd (h ▸ hhigh) (by decide)
  have hpos : 0 < 2 ^ u := Nat.two_pow_pos u
  have h0 : a * 2 ^ u ≠ 0 := Nat.mul_ne_zero hne hpos.ne'
  have hlog : (a * 2 ^ u).log2 = u + 52 := by
    refine (Nat.log2_eq_iff h0).2 ⟨?_, ?_⟩
    · calc 2 ^ (u + 52) = 2 ^ 52 * 2 ^ u := by rw [Nat.pow_add, Nat.mul_comm]
        _ ≤ a * 2 ^ u := Nat.mul_le_mul_right _ hlow
    · calc a * 2 ^ u < 2 ^ 53 * 2 ^ u := Nat.mul_lt_mul_of_pos_right hhigh hpos
        _ = 2 ^ (u + 52 + 1) := by rw [← Nat.pow_add, Nat.add_comm]
  have hunit : unitExponent (leadingExponent (a * 2 ^ u) 1) = (u : Int) := by
    rw [leadingExponent_one h0, unitExponent, hlog]
    omega
  have hdiv : roundDiv (a * 2 ^ u) (Nat.pow 2 u) = a := by
    simp only [roundDiv, Nat.pow_eq, Nat.mul_mod_left, Nat.mul_zero, hpos, if_true, Nat.mul_div_cancel _ hpos]
  rw [ofNat_eq_roundMagnitude (not_le.1 hexact)]
  simp only [roundMagnitude, hunit, Int.toNat_natCast, Nat.one_mul, Int.natCast_nonneg, if_true, hdiv, hne, if_false,
    Bool.false_eq_true, hlimit, and_false]
  rw [if_neg (by omega)]
  rfl

/-- An integer past the exact ones is rounded to a number past them, which is its own rounding. -/
theorem ofNat_of_limit_lt {n : Nat} (h : significandLimit < n) :
    ofNat n = infinite false ∨ ∃ m : Nat, significandLimit ≤ m ∧ ofNat n = finite m ∧ ofNat m = finite m := by
  have h0 : n ≠ 0 := (lt_of_le_of_lt (Nat.zero_le _) h).ne'
  have hlog : 53 ≤ n.log2 := (Nat.le_log2 h0).2 h.le
  obtain ⟨u, hu⟩ : ∃ u, n.log2 = u + 52 := ⟨n.log2 - 52, by omega⟩
  have hunit : unitExponent (leadingExponent n 1) = (u : Int) := by
    rw [leadingExponent_one h0, unitExponent, hu]
    omega
  have hlow : 2 ^ 52 ≤ roundDiv n (2 ^ u) := by
    refine le_trans ((Nat.le_div_iff_mul_le (Nat.two_pow_pos u)).2 ?_) (le_roundDiv _ _)
    have := Nat.log2_self_le h0
    rwa [hu, Nat.add_comm, Nat.pow_add] at this
  have hhigh : roundDiv n (2 ^ u) ≤ 2 ^ 53 := by
    refine le_trans (roundDiv_le _ _) (Nat.div_lt_of_lt_mul ?_)
    have : n < 2 ^ (n.log2 + 1) := Nat.lt_log2_self
    rwa [hu, show u + 52 + 1 = u + 53 by omega, Nat.pow_add] at this
  have hmag : significandLimit ≤ roundDiv n (2 ^ u) * 2 ^ u :=
    calc significandLimit = 2 ^ 52 * 2 ^ 1 := by decide
      _ ≤ roundDiv n (2 ^ u) * 2 ^ u := Nat.mul_le_mul hlow (Nat.pow_le_pow_right (by decide) (by omega))
  have hne : roundDiv n (2 ^ u) ≠ 0 := by
    have : 0 < 2 ^ 52 := by decide
    omega
  rw [ofNat_eq_roundMagnitude h]
  simp only [roundMagnitude, hunit, Int.toNat_natCast, Nat.one_mul, Int.natCast_nonneg, if_true, hne, if_false,
    Bool.false_eq_true, Nat.pow_eq]
  split_ifs with hbig hlimit
  · exact .inl rfl
  · exact .inl rfl
  · refine .inr ⟨_, hmag, rfl, ?_⟩
    rcases hhigh.lt_or_eq with hlt | heq
    · exact ofNat_shifted hlow hlt (by omega)
    · -- rounding up has led to one more binary digit
      have hroom : u ≠ 971 := fun hu' => hlimit ⟨by omega, heq⟩
      have hshift : roundDiv n (2 ^ u) * 2 ^ u = 2 ^ 52 * 2 ^ (u + 1) := by
        rw [heq, Nat.pow_succ 2 u, show (2 : Nat) ^ 53 = 2 ^ 52 * 2 from rfl]
        ring
      rw [hshift]
      exact ofNat_shifted le_rfl (by decide) (by omega)

/-- A natural number is rounded to one that is its own rounding, if it is not too large. -/
theorem exists_ofNat_eq (n : Nat) : ofNat n = infinite false ∨ ∃ m : Nat, ofNat n = finite m ∧ ofNat m = finite m := by
  rcases Nat.lt_or_ge significandLimit n with hlt | hle
  · exact (ofNat_of_limit_lt hlt).imp_right fun ⟨m, _, hm⟩ => ⟨m, hm⟩
  · exact .inr ⟨n, ofNat_eq hle, ofNat_eq hle⟩

/-- An integer past the exact ones is no less than any of them. -/
theorem not_ofInt_lt {n : Int} {k : Nat} (hn : significandLimit < n) (hk : k ≤ significandLimit) :
    ¬ ofInt n < ofNat k := by
  obtain ⟨m, rfl⟩ : ∃ m : Nat, n = m := ⟨n.toNat, by omega⟩
  have hm : significandLimit < m := by exact_mod_cast hn
  rw [ofNat_eq hk, show ofInt m = ofNat m from rfl]
  obtain h | ⟨r, hr, h, -⟩ := ofNat_of_limit_lt hm
  · rw [h]
    exact fun h => by cases h
  · rw [h, finite_lt, not_lt]
    exact_mod_cast hk.trans hr

/-- Natural numbers below a bound, rounded, are found by counting up to it. -/
theorem exists_lt_countBelow {n : Nat} {x : Binary64} (hx : x.isFinite = true) (h : ofNat n < x) :
    ∃ m < x.countBelow, ofNat n = ofNat m := by
  obtain hn | ⟨m, hn, hm⟩ := exists_ofNat_eq n
  · rw [hn] at h
    cases x with
    | infinite _ => cases hx
    | _ => cases h
  refine ⟨m, ?_, hn.trans hm.symm⟩
  rw [hn] at h
  cases x with
  | finite q =>
    have hlt : (m : Int) < q.ceil := Rat.lt_ceil_iff.2 (by exact_mod_cast finite_lt.1 h)
    change m < q.ceil.toNat
    omega
  | negZero =>
    rw [lt_iff_value rfl rfl] at h
    exact absurd h (not_lt.2 (Nat.cast_nonneg (α := Rat) m))
  | infinite _ => cases hx
  | nan => cases hx

/-! ## Whole parts -/

theorem value_eq_toWhole {x : Binary64} (h : x.isWhole = true) : x.value = x.toWhole := by
  cases x with
  | finite q =>
    have hden : q.den = 1 := by simpa [isWhole] using h
    simp only [value, toWhole, hden, Nat.cast_one, Int.tdiv_one]
    exact (Rat.den_eq_one_iff q).1 hden |>.symm
  | negZero => simp [value, toWhole]
  | infinite n => cases h
  | nan => cases h

@[simp] theorem toWhole_finite_intCast (n : Int) : (finite n).toWhole = n := by simp [toWhole]

theorem isFinite_of_isWhole {x : Binary64} (h : x.isWhole = true) : x.isFinite = true := by
  cases x <;> first | rfl | cases h

/-- A whole number reaches a count when its whole part does. -/
theorem le_finite_iff {x : Binary64} (h : x.isWhole = true) (n : Int) : x ≤ finite n ↔ x.toWhole ≤ n := by
  rw [le_iff_value (isFinite_of_isWhole h) rfl, value_eq_toWhole h]
  exact Int.cast_le

theorem lt_finite_iff {x : Binary64} (h : x.isWhole = true) (n : Int) : x < finite n ↔ x.toWhole < n := by
  rw [lt_iff_value (isFinite_of_isWhole h) rfl, value_eq_toWhole h]
  exact Int.cast_lt

/-- A number that passes the range check of a field has its whole part in that range. -/
theorem toWhole_mem {x : Binary64} {k : Nat} (hk : k ≤ significandLimit) (h0 : ¬ x < 0) (h1 : ¬ ofNat k < x) :
    0 ≤ x.toWhole ∧ x.toWhole ≤ k := by
  rw [zero_eq] at h0
  rw [ofNat_eq hk] at h1
  cases x with
  | finite q =>
    rw [finite_lt, not_lt] at h0 h1
    have hnum : 0 ≤ q.num := Rat.num_nonneg.2 h0
    refine ⟨Int.tdiv_nonneg hnum (Int.natCast_nonneg _), ?_⟩
    have hle : q.num ≤ k * q.den := by
      have := (Rat.le_iff q k).1 h1
      simpa using this
    rw [toWhole, Int.tdiv_eq_ediv_of_nonneg hnum]
    exact Int.ediv_le_of_le_mul (by exact_mod_cast q.pos) hle
  | negZero => exact ⟨le_refl _, by simp [toWhole]⟩
  | infinite n =>
    cases n
    · exact absurd rfl h1
    · exact absurd rfl h0
  | nan => exact ⟨le_refl _, by simp [toWhole]⟩

/-- The integers that fit the duration of a WAIT. -/
theorem duration_iff {n : Int} (hn : 0 ≤ n) :
    ((ofInt n).isWhole && decide (1 ≤ ofInt n) && decide (ofInt n < ofNat Word.durationLimit)) = true ↔
      1 ≤ n ∧ n < Word.durationLimit := by
  have hlim : Word.durationLimit ≤ significandLimit := by decide
  by_cases h : n.natAbs ≤ significandLimit
  · rw [ofInt_eq h, ofNat_eq hlim]
    simp only [Bool.and_eq_true, decide_eq_true_eq, finite_lt, one_eq, finite_le]
    constructor
    · rintro ⟨⟨-, h1⟩, h2⟩
      exact ⟨by exact_mod_cast h1, by exact_mod_cast h2⟩
    · rintro ⟨h1, h2⟩
      exact ⟨⟨by simp [isWhole], by exact_mod_cast h1⟩, by exact_mod_cast h2⟩
  · have hbig : (significandLimit : Int) < n := by omega
    simp only [Bool.and_eq_true, decide_eq_true_eq, not_ofInt_lt hbig hlim, and_false, false_iff, not_and, not_lt]
    intro _
    exact le_trans (by exact_mod_cast hlim) hbig.le

end PulseSequencer.Binary64
