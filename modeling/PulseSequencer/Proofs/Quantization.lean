import PulseSequencer.Proofs.Order
import PulseSequencer.Time.Tick

/-!
# Whole numbers of ticks

A time that is a whole number of ticks should be quantized to that number. The noise that quantization allows grows with
the quotient, and from `500000000` ticks on it reaches half a tick, so that every whole number is taken for a tie there.

* `Binary64.leadingExponent_spec`, `Binary64.ofRat_near` : the error of rounding, away from the ends of the range;
* `Tick.half_le_margin_iff` : from where on half a tick is within the noise;
* `Tick.quantize_whole` : the tick of a whole number of ticks.
-/

namespace PulseSequencer

namespace Binary64

/-! ## The error of rounding -/

/-- A rounded quotient is at most half a unit off. -/
theorem roundDiv_near {num den : Nat} (hden : den ≠ 0) : |(roundDiv num den : ℚ) - num / den| ≤ 1 / 2 := by
  have hsplit := Nat.div_add_mod num den
  have hrest := Nat.mod_lt num (Nat.pos_of_ne_zero hden)
  have hcases : roundDiv num den = num / den ∧ 2 * (num % den) ≤ den ∨
      roundDiv num den = num / den + 1 ∧ den ≤ 2 * (num % den) := by
    simp only [roundDiv]
    split_ifs <;> omega
  have hbounds : 2 * (den * roundDiv num den) ≤ 2 * num + den ∧ 2 * num ≤ 2 * (den * roundDiv num den) + den := by
    rcases hcases with ⟨heq, hle⟩ | ⟨heq, hle⟩
    · rw [heq]
      omega
    · rw [heq, Nat.mul_add]
      omega
  have hpos : (0 : ℚ) < den := by exact_mod_cast Nat.pos_of_ne_zero hden
  have hcast : 2 * ((den : ℚ) * roundDiv num den) ≤ 2 * num + den ∧
      2 * (num : ℚ) ≤ 2 * (den * roundDiv num den) + den := by exact_mod_cast hbounds
  have hsub : (roundDiv num den : ℚ) - num / den = (den * roundDiv num den - num) / den := by field_simp
  rw [hsub, abs_div, abs_of_pos hpos, div_le_iff₀ hpos, abs_le]
  constructor <;> linarith

theorem cast_pow_toNat {k : ℤ} (hk : 0 ≤ k) : ((Nat.pow 2 k.toNat : Nat) : ℚ) = 2 ^ k := by
  rw [Nat.pow_eq, Nat.cast_pow, Nat.cast_ofNat, ← zpow_natCast, Int.toNat_of_nonneg hk]

theorem cast_pow_toNat_neg {k : ℤ} (hk : ¬ 0 ≤ k) : ((Nat.pow 2 (-k).toNat : Nat) : ℚ) = (2 ^ k)⁻¹ := by
  rw [cast_pow_toNat (by omega), zpow_neg]

theorem div_lt_zpow_iff {num den : Nat} (hden : den ≠ 0) (k : ℤ) : (num : ℚ) / den < 2 ^ k ↔
    if 0 ≤ k then num < den * Nat.pow 2 k.toNat else num * Nat.pow 2 (-k).toNat < den := by
  have hpos : (0 : ℚ) < den := by exact_mod_cast Nat.pos_of_ne_zero hden
  have hpow : (0 : ℚ) < 2 ^ k := by positivity
  rw [div_lt_iff₀ hpos]
  split
  · rename_i hk
    rw [← Nat.cast_lt (α := ℚ), Nat.cast_mul, cast_pow_toNat hk, mul_comm]
  · rename_i hk
    rw [← Nat.cast_lt (α := ℚ), Nat.cast_mul, cast_pow_toNat_neg hk, mul_inv_lt_iff₀ hpow, mul_comm]

theorem zpow_log2_le {n : Nat} (hn : n ≠ 0) : (2 : ℚ) ^ (n.log2 : ℤ) ≤ n := by
  rw [zpow_natCast]
  exact_mod_cast Nat.log2_self_le hn

theorem lt_zpow_log2 (n : Nat) : (n : ℚ) < 2 ^ ((n.log2 : ℤ) + 1) := by
  rw [← Nat.cast_succ, zpow_natCast]
  exact_mod_cast Nat.lt_log2_self

/-- The leading exponent tells between which powers of two a quotient is. -/
theorem leadingExponent_spec {num den : Nat} (hnum : num ≠ 0) (hden : den ≠ 0) :
    (2 : ℚ) ^ leadingExponent num den ≤ num / den ∧ (num : ℚ) / den < 2 ^ (leadingExponent num den + 1) := by
  have hpos : (0 : ℚ) < den := by exact_mod_cast Nat.pos_of_ne_zero hden
  set estimate : ℤ := (num.log2 : ℤ) - den.log2 with hest
  have hbelow : leadingExponent num den = if (num : ℚ) / den < 2 ^ estimate then estimate - 1 else estimate := by
    rw [leadingExponent]
    simp only [div_lt_zpow_iff hden, ← hest]
    by_cases hk : 0 ≤ estimate
    · simp only [hk, if_true, decide_eq_true_eq]
    · simp only [hk, if_false, decide_eq_true_eq]
  rw [hbelow]
  split
  · rename_i hlt
    refine ⟨?_, by rwa [sub_add_cancel]⟩
    rw [le_div_iff₀ hpos]
    calc (2 : ℚ) ^ (estimate - 1) * den ≤ 2 ^ (estimate - 1) * 2 ^ ((den.log2 : ℤ) + 1) := by
          gcongr
          exact (lt_zpow_log2 den).le
      _ = 2 ^ (num.log2 : ℤ) := by rw [← zpow_add₀ two_ne_zero]; congr 1; omega
      _ ≤ num := zpow_log2_le hnum
  · rename_i hle
    refine ⟨not_lt.1 hle, ?_⟩
    rw [div_lt_iff₀ hpos]
    calc (num : ℚ) < 2 ^ ((num.log2 : ℤ) + 1) := lt_zpow_log2 num
      _ = 2 ^ (estimate + 1) * 2 ^ (den.log2 : ℤ) := by rw [← zpow_add₀ two_ne_zero]; congr 1; omega
      _ ≤ 2 ^ (estimate + 1) * den := by
          gcongr
          exact zpow_log2_le hden

/-- The quotient in units of `2 ^ unit`, rounded. -/
def significandAt (num den : Nat) (unit : ℤ) : Nat :=
  if 0 ≤ unit then roundDiv num (den * Nat.pow 2 unit.toNat) else roundDiv (num * Nat.pow 2 (-unit).toNat) den

theorem significandAt_near {num den : Nat} (hden : den ≠ 0) (unit : ℤ) :
    |(significandAt num den unit : ℚ) - num / den / 2 ^ unit| ≤ 1 / 2 := by
  unfold significandAt
  split
  · rename_i hk
    have h := @roundDiv_near num _ (mul_ne_zero hden (pow_ne_zero unit.toNat two_ne_zero))
    rwa [Nat.cast_mul, ← Nat.pow_eq, cast_pow_toNat hk, ← div_div] at h
  · rename_i hk
    have h := @roundDiv_near (num * Nat.pow 2 (-unit).toNat) _ hden
    rwa [Nat.cast_mul, cast_pow_toNat_neg hk, mul_div_right_comm, ← div_eq_mul_inv] at h

/-- Away from the ends of the range, rounding takes the digits from the leading one on. -/
theorem roundMagnitude_eq {num den : Nat} {unit : ℤ} (hunit : unitExponent (leadingExponent num den) = unit)
    (hhigh : unit < 971) (hne : significandAt num den unit ≠ 0) :
    roundMagnitude false num den = finite (significandAt num den unit * 2 ^ unit) := by
  subst hunit
  unfold roundMagnitude
  extract_lets unit significand magnitude
  have hsig : significand = significandAt num den unit := rfl
  have hmag : magnitude = significandAt num den unit * 2 ^ unit := by
    unfold magnitude
    rw [hsig]
    split
    · rename_i hk
      rw [Nat.cast_mul, cast_pow_toNat hk]
    · rename_i hk
      rw [Rat.mkRat_eq_div, cast_pow_toNat_neg hk, div_inv_eq_mul, Int.cast_natCast]
  rw [if_neg (by omega), if_neg (hsig ▸ hne), if_neg (by omega), if_neg Bool.false_ne_true, hmag]

/-- Away from the ends of the range, rounding is off by one part in `2 ^ 53` at most. -/
theorem ofRat_near {q : ℚ} (hlow : (2 : ℚ) ^ (-1022 : ℤ) ≤ q) (hhigh : q < 2 ^ (1023 : ℤ)) :
    ∃ r, ofRat q = finite r ∧ |r - q| ≤ q / 2 ^ 53 := by
  have hq : 0 < q := lt_of_lt_of_le (by positivity) hlow
  unfold ofRat
  split
  · exact ⟨q, rfl, by rw [sub_self, abs_zero]; positivity⟩
  have hnum : 0 < q.num := Rat.num_pos.2 hq
  have hquot : (q.num.natAbs : ℚ) / q.den = q := by
    rw [Nat.cast_natAbs, abs_of_pos hnum, Rat.num_div_den]
  obtain ⟨hle, hlt⟩ := @leadingExponent_spec q.num.natAbs _ (by omega) q.den_ne_zero
  have hnear := @significandAt_near q.num.natAbs _ q.den_ne_zero (leadingExponent q.num.natAbs q.den - 52)
  rw [hquot] at hle hlt hnear
  have he : -1022 < leadingExponent q.num.natAbs q.den + 1 :=
    (zpow_lt_zpow_iff_right₀ one_lt_two).1 (hlow.trans_lt hlt)
  have he' : leadingExponent q.num.natAbs q.den < 1023 := (zpow_lt_zpow_iff_right₀ one_lt_two).1 (hle.trans_lt hhigh)
  have hunit : unitExponent (leadingExponent q.num.natAbs q.den) = leadingExponent q.num.natAbs q.den - 52 := by
    unfold unitExponent
    omega
  -- one unit is the leading power of two with 52 digits behind it
  have hpow : (2 : ℚ) ^ leadingExponent q.num.natAbs q.den =
      2 ^ (leadingExponent q.num.natAbs q.den - 52) * 2 ^ 52 := by
    rw [← zpow_natCast, ← zpow_add₀ two_ne_zero]
    congr 1
    omega
  have hpos : (0 : ℚ) < 2 ^ (leadingExponent q.num.natAbs q.den - 52) := by positivity
  have hne : significandAt q.num.natAbs q.den (leadingExponent q.num.natAbs q.den - 52) ≠ 0 := by
    intro h0
    rw [h0, Nat.cast_zero, zero_sub, abs_neg, abs_of_pos (div_pos hq hpos), div_le_iff₀ hpos] at hnear
    linarith
  refine ⟨_, by rw [decide_eq_false (by omega), roundMagnitude_eq hunit (by omega) hne], ?_⟩
  rw [hpow] at hle
  generalize (2 : ℚ) ^ (leadingExponent q.num.natAbs q.den - 52) = u at *
  generalize significandAt q.num.natAbs q.den (leadingExponent q.num.natAbs q.den - 52) = s at *
  calc |s * u - q| = |s - q / u| * u := by
        rw [← abs_of_pos hpos, ← abs_mul, abs_of_pos hpos, sub_mul, div_mul_cancel₀ _ hpos.ne']
    _ ≤ 1 / 2 * u := by gcongr
    _ = u * 2 ^ 52 / 2 ^ 53 := by ring
    _ ≤ q / 2 ^ 53 := by gcongr

/-! ## Whole numbers -/

theorem finite_sub_self (q : ℚ) : finite q - finite q = finite 0 := by
  change Binary64.add (finite q) (if q.num = 0 then negZero else finite (-q)) = finite 0
  split
  · rename_i hq
    rw [Rat.zero_of_num_zero hq]
    change ofRat (0 + 0) = finite 0
    rw [add_zero]
    exact zero_eq
  · change ofRat (q + -q) = finite 0
    rw [add_neg_cancel]
    exact zero_eq

theorem finite_mul_finite {a b : ℚ} (ha : 0 < a) (hb : 0 < b) : finite a * finite b = ofRat (a * b) := by
  have hzero : ∀ {q : ℚ}, 0 < q → (finite q).isZero = false := by
    intro q hq
    rw [isZero, beq_eq_false_iff_ne]
    exact (Rat.num_pos.2 hq).ne'
  change (if (finite a).isZero || (finite b).isZero then _ else _) = _
  rw [hzero ha, hzero hb]
  rfl

/-- A number that is equal to a whole one is it, but for the sign of a zero. -/
theorem equal_ofNat_iff {x : Binary64} {n : Nat} (hn : n ≤ significandLimit) :
    x.equal (ofNat n) = true ↔ x = finite n ∨ x = negZero ∧ n = 0 := by
  rw [ofNat_eq hn, equal, Bool.and_eq_true]
  change x ≤ finite n ∧ finite n ≤ x ↔ _
  cases x with
  | finite q =>
    rw [finite_le, finite_le, ← le_antisymm_iff]
    simp
  | negZero =>
    rw [le_iff_value rfl rfl, le_iff_value rfl rfl, ← le_antisymm_iff]
    simp [value, eq_comm]
  | infinite s => cases s <;> simp [LE.le, Binary64.le, Binary64.lt, isNaN]
  | nan => simp [LE.le, Binary64.le, isNaN]

end Binary64

namespace Tick

open Binary64

/-- The noise that is allowed: the binary64 number next to `1e-9`. -/
def noise : ℚ := 4835703278458517 / 4835703278458516698824704

theorem tolerance_eq : tolerance = finite noise := by decide +kernel

/-- The noise that is allowed for a quotient. -/
def margin (exact : Binary64) : Binary64 := tolerance * Binary64.max 1 exact.abs

theorem margin_of_abs {x : Binary64} {n : Nat} (hx : x.abs = finite n) :
    margin x = ofRat (noise * max 1 (n : ℚ)) := by
  have hmax : Binary64.max 1 (finite n) = finite (max 1 (n : ℚ)) := by
    rw [Binary64.max, one_eq]
    by_cases hlt : (1 : ℚ) < n
    · rw [if_neg (by simp [isNaN]), if_pos (finite_lt.2 hlt), max_eq_right hlt.le]
    · rw [if_neg (by simp [isNaN]), if_neg (mt finite_lt.1 hlt), max_eq_left (not_lt.1 hlt)]
  rw [margin, hx, hmax, tolerance_eq]
  exact finite_mul_finite (by norm_num [noise]) (lt_of_lt_of_le one_pos (le_max_left _ _))

theorem noise_near {m : ℚ} (hlow : 1 ≤ m) (hhigh : m ≤ 2 ^ 53) :
    ∃ r, ofRat (noise * m) = finite r ∧ |r - noise * m| ≤ noise * m / 2 ^ 53 := by
  refine ofRat_near ?_ ?_
  · calc (2 : ℚ) ^ (-1022 : ℤ) ≤ 2 ^ (-30 : ℤ) := zpow_le_zpow_right₀ one_le_two (by decide)
      _ ≤ noise * m := by
        norm_num [noise]
        linarith
  · calc noise * m < 2 ^ (53 : ℤ) := by
          norm_num [noise] at hhigh ⊢
          linarith
      _ ≤ 2 ^ (1023 : ℤ) := zpow_le_zpow_right₀ one_le_two (by decide)

/-- Half a tick is within the noise that is allowed for a whole number of ticks from `500000000` on. -/
theorem half_le_margin_iff {x : Binary64} {n : Nat} (hn : n ≤ significandLimit) (hx : x.abs = finite n) :
    finite (1 / 2) ≤ margin x ↔ 500000000 ≤ n := by
  rw [margin_of_abs hx]
  by_cases hmid : n = 500000000
  · -- the margin is rounded down to one half
    rw [hmid]
    exact iff_of_true (by decide +kernel) le_rfl
  have hle : (n : ℚ) ≤ 2 ^ 53 := by exact_mod_cast hn
  obtain ⟨r, hr, hnear⟩ := noise_near (le_max_left 1 (n : ℚ)) (max_le (by norm_num) hle)
  rw [abs_le, noise] at hnear
  rw [hr, finite_le]
  rcases Nat.lt_or_ge n 500000000 with hlt | hge
  · have hcast : max 1 (n : ℚ) ≤ 499999999 := max_le (by norm_num) (by exact_mod_cast Nat.le_of_lt_succ hlt)
    refine iff_of_false ?_ (by omega)
    linarith
  · have hcast : 500000001 ≤ max 1 (n : ℚ) := le_max_of_le_right (by exact_mod_cast (by omega : 500000001 ≤ n))
    refine iff_of_true ?_ hge
    linarith

theorem isEven_natCast (n : Nat) : isEven (finite n) = decide (n % 2 = 0) := by
  rw [isEven, Rat.den_natCast, Rat.num_natCast, beq_self_eq_true, Bool.true_and, beq_eq_decide]
  exact decide_eq_decide.2 (by omega)

/-- A quotient that is a whole number of ticks is taken for a tie if half a tick is within the noise. -/
theorem quantize_of_div {time unit : Binary64} {n : Nat} (hn : n < significandLimit) (h : time / unit = finite n) :
    quantize time unit = finite (if n % 2 = 0 ∨ n < 500000000 then n else n + 1 : Nat) := by
  have hfloor : (finite (n : ℚ)).floor = finite n := by
    rw [Binary64.floor, ← Int.cast_natCast, Rat.floor_intCast]
  have hround : (finite (n : ℚ)).round = finite n := by
    rw [Binary64.round, add_comm, ← Int.cast_natCast, Rat.floor_add_intCast,
      show (1 / 2 : ℚ).floor = 0 by decide +kernel, zero_add]
  have habs : (finite (n : ℚ)).abs = finite n := by rw [Binary64.abs, if_neg (by simp)]
  have hhalf : (finite 0 - oneHalf).abs = finite (1 / 2) := by decide +kernel
  have hnext : finite (n : ℚ) + 1 = finite (n + 1 : Nat) := by
    rw [one_eq, ← ofNat_eq (show n + 1 ≤ significandLimit from hn)]
    change ofRat (n + 1) = ofRat ((n + 1 : Nat) : ℤ)
    push_cast
    rfl
  have hmargin := half_le_margin_iff hn.le habs
  rw [margin, habs] at hmargin
  simp only [quantize, h, hfloor, finite_sub_self, hhalf, hnext, hround, isEven_natCast, habs, hmargin,
    decide_eq_true_eq]
  split_ifs <;> first | rfl | omega

/-- A time that is exactly `n` ticks, `n` being below `2 ^ 53`, is quantized to `n` if `n` is even or below `500000000`.
Any other is taken for a tie, and goes to the even tick behind it. -/
theorem quantize_whole {n : Nat} (hn : n < significandLimit) {time unit : Binary64}
    (h : (time / unit).equal (ofNat n) = true) :
    (quantize time unit).equal (ofNat (if n % 2 = 0 ∨ n < 500000000 then n else n + 1)) = true ∧
      ofTime unit time = (if n % 2 = 0 ∨ n < 500000000 then n else n + 1 : Nat) := by
  rcases (equal_ofNat_iff hn.le).1 h with hdiv | ⟨hdiv, rfl⟩
  · have hquant := quantize_of_div hn hdiv
    generalize hm : (if n % 2 = 0 ∨ n < 500000000 then n else n + 1) = m at hquant ⊢
    have hle : m ≤ significandLimit := by
      rw [← hm]
      split <;> omega
    refine ⟨(equal_ofNat_iff hle).2 (.inl hquant), ?_⟩
    rw [ofTime, hquant, ← Int.cast_natCast]
    exact Rat.floor_intCast m
  · -- a negative zero stays one
    have hquant : quantize time unit = negZero := by
      rw [quantize, hdiv]
      decide +kernel
    rw [ofTime, hquant]
    exact ⟨by decide +kernel, rfl⟩

/-- Five seconds and three ticks of 10 ns. -/
theorem quantize_odd : 500000003 < significandLimit ∧
    (ofDecimal false 500000003 (-2) / ofDecimal false 1 (-2)).equal (ofNat 500000003) = true ∧
    (quantize (ofDecimal false 500000003 (-2)) (ofDecimal false 1 (-2))).equal (ofNat 500000004) = true ∧
    ofTime (ofDecimal false 1 (-2)) (ofDecimal false 500000003 (-2)) = 500000004 := by
  have hn : 500000003 < significandLimit := by decide
  have hdiv : (ofDecimal false 500000003 (-2) / ofDecimal false 1 (-2)).equal (ofNat 500000003) = true := by
    decide +kernel
  exact ⟨hn, hdiv, quantize_whole hn hdiv⟩

end Tick

end PulseSequencer
