import Mathlib
import PulseSequencer.Code.Word

/-!
# Reading back instruction words

* `Operation.Fits` : every field of an operation fits its place in the word;
* `Operation.ofWord_toWord` : fields that fit are read back as they were written.
-/

namespace PulseSequencer.Operation

/-- The fields of an operation are within the limits of the word format. -/
def Fits : Operation → Prop
  | wait duration => duration < Word.durationLimit
  | jump _ channel threshold address =>
    channel < Word.channelLimit ∧ threshold < Word.thresholdLimit ∧ address < Word.addressLimit
  | set value => value < Word.busLimit
  | stop => True

theorem toNat_toWord_wait {duration : Nat} (h : duration < Word.durationLimit) :
    (toWord (wait duration)).toNat = duration := by
  unfold Word.durationLimit at h
  rw [toWord, BitVec.toNat_ofNat, Nat.mod_eq_of_lt (by omega)]

theorem toNat_toWord_set {value : Nat} (h : value < Word.busLimit) :
    (toWord (set value)).toNat = 0x80000000 + value := by
  unfold Word.busLimit at h
  rw [toWord, BitVec.toNat_ofNat, Nat.mod_eq_of_lt (by omega)]

theorem toNat_toWord_jump {always : Bool} {channel threshold address : Nat} (hc : channel < Word.channelLimit)
    (ht : threshold < Word.thresholdLimit) (ha : address < Word.addressLimit) :
    (toWord (jump always channel threshold address)).toNat =
      0x40000000 + (if always then 0x20000000 else 0) + channel * 0x4000000 + threshold * 0x400 + address := by
  unfold Word.channelLimit at hc
  unfold Word.thresholdLimit at ht
  unfold Word.addressLimit at ha
  rw [toWord, BitVec.toNat_ofNat, Nat.mod_eq_of_lt (by split <;> omega)]

theorem ofWord_toWord {op : Operation} (h : op.Fits) : ofWord op.toWord = op := by
  cases op with
  | wait duration =>
    unfold ofWord
    rw [toNat_toWord_wait h]
    have hlt : duration < 0x40000000 := h
    simp only [Nat.div_eq_of_lt hlt, Word.durationLimit, Nat.mod_eq_of_lt hlt]
  | jump always channel threshold address =>
    obtain ⟨hc, ht, ha⟩ := h
    unfold ofWord
    rw [toNat_toWord_jump hc ht ha]
    unfold Word.channelLimit at hc ⊢
    unfold Word.thresholdLimit at ht ⊢
    unfold Word.addressLimit at ha ⊢
    -- the four fields below the opcode, read off the sum of their shifted values
    have hop : ∀ a : Nat, a ≤ 0x20000000 →
        (0x40000000 + a + channel * 0x4000000 + threshold * 0x400 + address) / 0x40000000 = 1 := by omega
    have hch : ∀ a : Nat, a = 0 ∨ a = 0x20000000 →
        (0x40000000 + a + channel * 0x4000000 + threshold * 0x400 + address) / 0x4000000 % 8 = channel := by omega
    have hth : ∀ a : Nat, a = 0 ∨ a = 0x20000000 →
        (0x40000000 + a + channel * 0x4000000 + threshold * 0x400 + address) / 0x400 % 0x10000 = threshold := by omega
    have had : ∀ a : Nat, a = 0 ∨ a = 0x20000000 →
        (0x40000000 + a + channel * 0x4000000 + threshold * 0x400 + address) % 0x400 = address := by omega
    have hal : (0x40000000 + 0x20000000 + channel * 0x4000000 + threshold * 0x400 + address) / 0x20000000 % 2 = 1 := by
      omega
    have hnal : (0x40000000 + 0 + channel * 0x4000000 + threshold * 0x400 + address) / 0x20000000 % 2 = 0 := by omega
    cases always with
    | true =>
      simp only [if_true, hop _ (le_refl _), hch _ (Or.inr rfl), hth _ (Or.inr rfl), had _ (Or.inr rfl), hal]
      rfl
    | false =>
      simp only [Bool.false_eq_true, if_false, hop 0 (by decide), hch 0 (Or.inl rfl), hth 0 (Or.inl rfl),
        had 0 (Or.inl rfl), hnal]
      rfl
  | set value =>
    unfold ofWord
    rw [toNat_toWord_set h]
    unfold Fits Word.busLimit at h
    unfold Word.busLimit
    have hop : (0x80000000 + value) / 0x40000000 = 2 := by omega
    have hval : (0x80000000 + value) % 0x1000000 = value := by omega
    simp only [hop, hval]
  | stop => rfl

end PulseSequencer.Operation
