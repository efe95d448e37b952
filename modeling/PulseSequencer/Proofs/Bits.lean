import Mathlib
import PulseSequencer.Bits

/-!
# Bus values bit by bit

A bus value is read one bit at a time, so that laws of masks become laws of booleans.

* `Bits.bit` : one bit of a value, with one rule for each operation on values;
* `Bits.eq_of_bit_eq`, `Bits.without_eq_zero` : values that agree in all bits, and values inside a mask;
* `Bits.unsigned_lt_iff`, `Bits.unsigned_eq` : values that fit a number of bits.
-/

namespace PulseSequencer.Bits

/-- Bit `i` of a value; no bit from 32 on is set. -/
def bit (n : Int) (i : Nat) : Bool := (bits n).getLsbD i

@[simp] theorem bits_toInt (x : BitVec 32) : bits x.toInt = x := BitVec.ofInt_toInt

@[simp] theorem bits_and (a b : Int) : bits (and a b) = bits a &&& bits b := bits_toInt _

@[simp] theorem bits_or (a b : Int) : bits (or a b) = bits a ||| bits b := bits_toInt _

@[simp] theorem bits_xor (a b : Int) : bits (xor a b) = bits a ^^^ bits b := bits_toInt _

@[simp] theorem bits_without (a m : Int) : bits (without a m) = bits a &&& ~~~ bits m := bits_toInt _

@[simp] theorem bits_single (n : Int) : bits (single n) = 1#32 <<< position n := bits_toInt _

@[simp] theorem bits_zero : bits 0 = 0#32 := rfl

@[simp] theorem bit_zero (i : Nat) : bit 0 i = false := by simp [bit]

@[simp] theorem bit_and (a b : Int) (i : Nat) : bit (and a b) i = (bit a i && bit b i) := by simp [bit]

@[simp] theorem bit_or (a b : Int) (i : Nat) : bit (or a b) i = (bit a i || bit b i) := by simp [bit]

@[simp] theorem bit_xor (a b : Int) (i : Nat) : bit (xor a b) i = (bit a i ^^ bit b i) := by simp [bit]

theorem bit_of_le {a : Int} {i : Nat} (h : 32 ≤ i) : bit a i = false := BitVec.getLsbD_of_ge _ _ h

@[simp] theorem bit_without (a m : Int) (i : Nat) : bit (without a m) i = (bit a i && !bit m i) := by
  by_cases h : i < 32
  · simp [bit, h]
  · rw [bit_of_le (a := without a m) (by omega), bit_of_le (a := a) (by omega), Bool.false_and]

theorem position_lt (n : Int) : position n < 32 := by
  unfold position
  omega

@[simp] theorem bit_single (n : Int) (i : Nat) : bit (single n) i = decide (i = position n) := by
  have := position_lt n
  rw [bit, bits_single, BitVec.getLsbD_shiftLeft]
  by_cases h : i = position n
  · subst h
    simp [this]
  · simp only [BitVec.getLsbD_one]
    simp only [h, decide_false, Bool.and_eq_false_iff, decide_eq_false_iff_not, Bool.not_eq_false']
    by_cases hi : i < position n
    · simp [hi]
    · have : i - position n ≠ 0 := by omega
      simp [this]

theorem position_of_lt {n : Int} (h0 : 0 ≤ n) (h1 : n < 32) : position n = n.toNat := by
  unfold position
  rw [Int.emod_eq_of_lt h0 h1]

theorem bit_foldl_or_single {α : Type} (line : α → Int) (xs : List α) : ∀ (a : Int) (i : Nat),
    bit (xs.foldl (fun state x => or state (single (line x))) a) i =
      (bit a i || xs.any fun x => decide (i = position (line x))) := by
  induction xs with
  | nil => simp
  | cons x xs ih =>
    intro a i
    rw [List.foldl_cons, ih, bit_or, bit_single, List.any_cons, Bool.or_assoc]

/-- A union of single bits is the number that its bits make. -/
theorem toInt_bits_foldl_or {α : Type} (line : α → Int) (xs : List α) : ∀ {a : Int}, (bits a).toInt = a →
    (bits (xs.foldl (fun state x => or state (single (line x))) a)).toInt =
      xs.foldl (fun state x => or state (single (line x))) a := by
  induction xs with
  | nil => exact id
  | cons x xs ih => exact fun {a} _ => ih (congrArg BitVec.toInt (bits_or a (single (line x))))

theorem test_eq_bit (value n : Int) : test value n = bit value (position n) := rfl

/-! ## Equality -/

theorem eq_of_bit_eq {x y : BitVec 32} (h : ∀ i, x.getLsbD i = y.getLsbD i) : x = y :=
  BitVec.eq_of_getLsbD_eq fun i _ => h i

theorem bits_eq_iff {a b : Int} : bits a = bits b ↔ ∀ i, bit a i = bit b i :=
  ⟨fun h i => by rw [bit, h, bit], fun h => eq_of_bit_eq h⟩

theorem or_eq_or {a b c d : Int} (h : ∀ i, bit (or a b) i = bit (or c d) i) : or a b = or c d := by
  refine congrArg BitVec.toInt (eq_of_bit_eq fun i => ?_)
  simpa only [bit, bits_or] using h i

theorem toInt_eq_zero {x : BitVec 32} : x.toInt = 0 ↔ x = 0#32 := by
  constructor
  · intro h
    rw [← bits_toInt x, h, bits_zero]
  · intro h
    rw [h]
    rfl

theorem and_eq_zero {a b : Int} : and a b = 0 ↔ ∀ i, (bit a i && bit b i) = false := by
  rw [and, toInt_eq_zero, ← bits_zero, ← bits_and, bits_eq_iff]
  simp only [bit_and, bit_zero]

/-- Values that agree outside a mask. -/
theorem without_congr {a b m : Int} (h : ∀ i, bit m i = false → bit a i = bit b i) : without a m = without b m := by
  refine congrArg BitVec.toInt ?_
  rw [← bits_without, ← bits_without, bits_eq_iff]
  intro i
  rw [bit_without, bit_without]
  cases hm : bit m i with
  | true => simp
  | false => rw [h i hm]

/-- A value drives no bit outside its mask. -/
theorem without_eq_zero {a m : Int} : without a m = 0 ↔ ∀ i, bit a i = true → bit m i = true := by
  rw [without, toInt_eq_zero, ← bits_zero, ← bits_without, bits_eq_iff]
  simp only [bit_without, bit_zero]
  refine forall_congr' fun i => ?_
  cases bit a i <;> cases bit m i <;> simp

/-! ## Size -/

theorem unsigned_lt_iff {a : Int} {k : Nat} : unsigned a < 2 ^ k ↔ ∀ i, k ≤ i → bit a i = false := by
  constructor
  · intro h i hi
    rw [bit, ← BitVec.testBit_toNat]
    exact Nat.testBit_lt_two_pow (lt_of_lt_of_le h (Nat.pow_le_pow_right (by decide) hi))
  · intro h
    refine Nat.lt_pow_two_of_testBit _ fun i hi => ?_
    rw [unsigned, BitVec.testBit_toNat]
    exact h i hi

/-- A small value is the same with and without a sign. -/
theorem unsigned_xor_eq {a b : Int} (h : unsigned (xor a b) < 2 ^ 31) : (unsigned (xor a b) : Int) = xor a b := by
  have hlt : 2 * (bits a ^^^ bits b).toNat < 2 ^ 32 := by
    have : unsigned (xor a b) = (bits a ^^^ bits b).toNat := by rw [unsigned, bits_xor]
    omega
  rw [unsigned, bits_xor, xor, BitVec.toInt_eq_toNat_of_lt hlt]

end PulseSequencer.Bits
