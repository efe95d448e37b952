import PulseSequencer.Proofs.Number

/-!
# The order of numbers

* `Binary64.key` : numbers on the extended line; `Binary64.lt_iff_key` : their order is the one there;
* `Binary64.sameKey_eq_false` : numbers that are not the same are told apart by the order;
* `Binary64.not_sub_lt_one` : what the comparison of a distance says of infinite times.
-/

namespace PulseSequencer.Binary64

/-- The place of a number on the extended line. -/
def key : Binary64 → WithBot (WithTop Rat)
  | finite q => ((q : WithTop Rat) : WithBot (WithTop Rat))
  | negZero => ((0 : Rat) : WithTop Rat)
  | infinite false => ((⊤ : WithTop Rat) : WithBot (WithTop Rat))
  | _ => ⊥

variable {x y z : Binary64}

theorem lt_iff_key (hx : x.isNaN = false) (hy : y.isNaN = false) : x < y ↔ x.key < y.key := by
  change x.lt y = true ↔ x.key < y.key
  cases x with
  | nan => cases hx
  | infinite n =>
    cases y with
    | nan => cases hy
    | infinite k => cases n <;> cases k <;> simp [key, Binary64.lt]
    | finite _ | negZero => cases n <;> simp [key, Binary64.lt]
  | finite _ | negZero =>
    cases y with
    | nan => cases hy
    | infinite k =>
      cases k with
      | false => exact iff_of_true rfl (WithBot.coe_lt_coe.2 (WithTop.coe_lt_top _))
      | true => simp [key, Binary64.lt]
    | finite _ | negZero => exact (lt_iff_value rfl rfl).trans (by simp [key, value])

theorem le_iff_key (hx : x.isNaN = false) (hy : y.isNaN = false) : x ≤ y ↔ x.key ≤ y.key := by
  have hle : x ≤ y ↔ ¬ y < x := by
    change (!x.isNaN && !y.isNaN && !(y.lt x)) = true ↔ ¬ y.lt x = true
    simp [hx, hy]
  rw [hle, lt_iff_key hy hx, not_lt]

/-! ## Numbers and the number that is none -/

theorem eq_nan (h : x.isNaN = true) : x = nan := by
  cases x <;> first | rfl | cases h

theorem isNaN_of_nonneg (h : 0 ≤ x) : x.isNaN = false := by
  cases x with
  | nan =>
    rw [zero_eq] at h
    cases h
  | _ => rfl

theorem isNaN_of_le (h : x ≤ y) : x.isNaN = false ∧ y.isNaN = false := by
  change (!x.isNaN && !y.isNaN && !(y.lt x)) = true at h
  simp only [Bool.and_eq_true, Bool.not_eq_true'] at h
  exact h.1

theorem isNaN_of_lt (h : x < y) : x.isNaN = false ∧ y.isNaN = false := by
  cases x <;> cases y <;> first | exact ⟨rfl, rfl⟩ | cases h

theorem not_le_nan (x : Binary64) : ¬ x ≤ nan := fun h => by cases (isNaN_of_le h).2

theorem not_nan_lt (x : Binary64) : ¬ nan < x := fun h => by cases (isNaN_of_lt h).1

protected theorem not_le (hx : x.isNaN = false) (hy : y.isNaN = false) : ¬ x ≤ y ↔ y < x := by
  rw [le_iff_key hx hy, lt_iff_key hy hx, not_le]

protected theorem not_lt (hx : x.isNaN = false) (hy : y.isNaN = false) : ¬ x < y ↔ y ≤ x := by
  rw [lt_iff_key hx hy, le_iff_key hy hx, not_lt]

/-! ## Chains -/

theorem le_iff : x ≤ y ↔ (x.isNaN = false ∧ y.isNaN = false) ∧ x.key ≤ y.key :=
  ⟨fun h => ⟨isNaN_of_le h, (le_iff_key (isNaN_of_le h).1 (isNaN_of_le h).2).1 h⟩,
    fun h => (le_iff_key h.1.1 h.1.2).2 h.2⟩

theorem lt_iff : x < y ↔ (x.isNaN = false ∧ y.isNaN = false) ∧ x.key < y.key :=
  ⟨fun h => ⟨isNaN_of_lt h, (lt_iff_key (isNaN_of_lt h).1 (isNaN_of_lt h).2).1 h⟩,
    fun h => (lt_iff_key h.1.1 h.1.2).2 h.2⟩

protected theorem le_refl (hx : x.isNaN = false) : x ≤ x := le_iff.2 ⟨⟨hx, hx⟩, le_rfl⟩

protected theorem le_of_lt (h : x < y) : x ≤ y := by
  rw [lt_iff] at h
  exact le_iff.2 ⟨h.1, h.2.le⟩

protected theorem le_trans (hxy : x ≤ y) (hyz : y ≤ z) : x ≤ z := by
  rw [le_iff] at hxy hyz
  exact le_iff.2 ⟨⟨hxy.1.1, hyz.1.2⟩, hxy.2.trans hyz.2⟩

protected theorem lt_of_le_of_lt (hxy : x ≤ y) (hyz : y < z) : x < z := by
  rw [le_iff] at hxy
  rw [lt_iff] at hyz
  exact lt_iff.2 ⟨⟨hxy.1.1, hyz.1.2⟩, hxy.2.trans_lt hyz.2⟩

protected theorem lt_of_lt_of_le (hxy : x < y) (hyz : y ≤ z) : x < z := by
  rw [lt_iff] at hxy
  rw [le_iff] at hyz
  exact lt_iff.2 ⟨⟨hxy.1.1, hyz.1.2⟩, hxy.2.trans_le hyz.2⟩

/-! ## Equality -/

/-- Numbers that are not equal are told apart by the order. -/
theorem equal_eq_false_iff (hx : x.isNaN = false) (hy : y.isNaN = false) :
    x.equal y = false ↔ x < y ∨ y < x := by
  rw [equal, Bool.and_eq_false_iff, Bool.eq_false_iff, Bool.eq_false_iff]
  change ¬ x ≤ y ∨ ¬ y ≤ x ↔ _
  rw [Binary64.not_le hx hy, Binary64.not_le hy hx, or_comm]

/-- Numbers that are different keys are told apart by the order. -/
theorem sameKey_eq_false (hx : x.isNaN = false) (hy : y.isNaN = false) : x.sameKey y = false ↔ x < y ∨ y < x := by
  rw [sameKey, hx, Bool.false_and, Bool.or_false, equal_eq_false_iff hx hy]

/-! ## Distances -/

theorem isNaN_ofRat (q : Rat) : (ofRat q).isNaN = false := by
  unfold ofRat
  split
  · rfl
  unfold roundMagnitude
  extract_lets unit significand magnitude
  split
  · rfl
  split
  · cases decide (q.num < 0) <;> rfl
  split <;> rfl

theorem isNaN_add_of_isFinite (hx : x.isFinite = true) (hy : y.isFinite = true) : (x + y).isNaN = false := by
  cases x with
  | nan | infinite _ => cases hx
  | negZero | finite _ =>
    cases y with
    | nan | infinite _ => cases hy
    | negZero | finite _ => first | exact isNaN_ofRat _ | rfl

theorem add_infinite (hx : x.isFinite = true) (n : Bool) : x + infinite n = infinite n := by
  cases x with
  | nan | infinite _ => cases hx
  | negZero | finite _ => rfl

theorem infinite_add (hx : x.isFinite = true) (n : Bool) : infinite n + x = infinite n := by
  cases x with
  | nan | infinite _ => cases hx
  | negZero | finite _ => rfl

theorem isFinite_neg (y : Binary64) : (-y).isFinite = y.isFinite := by
  cases y with
  | finite q =>
    change (if q.num = 0 then negZero else finite (-q)).isFinite = true
    split <;> rfl
  | _ => rfl

theorem isFinite_or_eq_infinite (hx : 0 ≤ x) : x.isFinite = true ∨ x = infinite false := by
  rw [zero_eq] at hx
  cases x with
  | nan => cases hx
  | infinite n =>
    cases n
    · exact .inr rfl
    · cases hx
  | negZero | finite _ => exact .inl rfl

/-- A distance of two times is a number, unless both are infinite. -/
theorem isNaN_sub (hx : 0 ≤ x) (hy : 0 ≤ y) : (x - y).isNaN = true ↔ x = infinite false ∧ y = infinite false := by
  change (x + -y).isNaN = true ↔ _
  rcases isFinite_or_eq_infinite hx with hx | rfl <;> rcases isFinite_or_eq_infinite hy with hy | rfl
  · rw [isNaN_add_of_isFinite hx ((isFinite_neg y).trans hy)]
    refine iff_of_false Bool.false_ne_true ?_
    rintro ⟨rfl, -⟩
    cases hx
  · rw [show -infinite false = infinite true from rfl, add_infinite hx]
    refine iff_of_false Bool.false_ne_true ?_
    rintro ⟨rfl, -⟩
    cases hx
  · rw [infinite_add ((isFinite_neg y).trans hy)]
    refine iff_of_false Bool.false_ne_true ?_
    rintro ⟨-, rfl⟩
    cases hy
  · exact iff_of_true rfl ⟨rfl, rfl⟩

/-- A length is not too short if it is long enough or, from an infinite time to an infinite time, none at all. -/
theorem not_sub_lt_one (hx : 0 ≤ x) (hy : 0 ≤ y) :
    ¬ x - y < 1 ↔ 1 ≤ x - y ∨ x = infinite false ∧ y = infinite false := by
  rw [← isNaN_sub hx hy]
  cases hnan : (x - y).isNaN with
  | true =>
    rw [eq_nan hnan]
    simp [not_nan_lt]
  | false =>
    rw [Binary64.not_lt hnan (isNaN_of_nonneg (by decide))]
    simp

end PulseSequencer.Binary64
