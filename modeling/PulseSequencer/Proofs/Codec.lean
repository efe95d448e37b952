import PulseSequencer.Proofs.Bits
import PulseSequencer.Proofs.Number
import PulseSequencer.Proofs.Word
import PulseSequencer.Schedule.Instruction

/-!
# The word format

* `Operation.toWord_ofWord` : a word without stray bits is written back as it was read;
* `Board.Denotes` : the fields of an instruction, as an operation has them;
* `Operation.sheet` : a board with an instruction of given fields;
* `Board.encode_inverse` : encoding and decoding undo each other, and these are the words they go between.
-/

namespace PulseSequencer

/-! ## Words -/

namespace Word

/-- The words of instructions: a WAIT takes time, a JUMP goes to a word, and no bit outside the fields is set. -/
def Canonical (w : Word) : Prop :=
  (w.extractLsb' 30 2 = 0 ∧ w.extractLsb' 0 30 ≠ 0) ∨ (w.extractLsb' 30 2 = 1 ∧ w.extractLsb' 0 10 ≠ 0) ∨
    (w.extractLsb' 30 2 = 2 ∧ w.extractLsb' 24 6 = 0) ∨ w = 0xC0000000

instance (w : Word) : Decidable w.Canonical := inferInstanceAs (Decidable (_ ∨ _ ∨ _ ∨ _))

theorem extractLsb'_eq_iff {w : Word} {start len n : Nat} (h : n < 2 ^ len) :
    w.extractLsb' start len = BitVec.ofNat len n ↔ w.toNat / 2 ^ start % 2 ^ len = n := by
  rw [← BitVec.toNat_inj, BitVec.extractLsb'_toNat, Nat.shiftRight_eq_div_pow, BitVec.toNat_ofNat, Nat.mod_eq_of_lt h]

/-- The same in numbers. -/
theorem canonical_iff {w : Word} : w.Canonical ↔
    (w.toNat / 0x40000000 = 0 ∧ w.toNat ≠ 0) ∨ (w.toNat / 0x40000000 = 1 ∧ w.toNat % 0x400 ≠ 0) ∨
      (w.toNat / 0x40000000 = 2 ∧ w.toNat / 0x1000000 % 0x40 = 0) ∨ w.toNat = 0xC0000000 := by
  have hw := w.isLt
  have hop : ∀ n < 4, w.extractLsb' 30 2 = BitVec.ofNat 2 n ↔ w.toNat / 0x40000000 = n := fun n hn => by
    rw [extractLsb'_eq_iff hn]
    omega
  have hduration : w.extractLsb' 0 30 = BitVec.ofNat 30 0 ↔ w.toNat % 0x40000000 = 0 := by
    rw [extractLsb'_eq_iff (by decide), Nat.pow_zero, Nat.div_one]
    exact Iff.rfl
  have haddress : w.extractLsb' 0 10 = BitVec.ofNat 10 0 ↔ w.toNat % 0x400 = 0 := by
    rw [extractLsb'_eq_iff (by decide), Nat.pow_zero, Nat.div_one]
    exact Iff.rfl
  have hstray : w.extractLsb' 24 6 = BitVec.ofNat 6 0 ↔ w.toNat / 0x1000000 % 0x40 = 0 :=
    extractLsb'_eq_iff (by decide)
  have hstop : w = 0xC0000000 ↔ w.toNat = 0xC0000000 := BitVec.toNat_inj.symm
  unfold Canonical
  rw [hstop, show (0 : BitVec 2) = BitVec.ofNat 2 0 from rfl, show (1 : BitVec 2) = BitVec.ofNat 2 1 from rfl,
    show (2 : BitVec 2) = BitVec.ofNat 2 2 from rfl, hop 0 (by decide), hop 1 (by decide), hop 2 (by decide), ne_eq,
    show (0 : BitVec 30) = BitVec.ofNat 30 0 from rfl, hduration, ne_eq,
    show (0 : BitVec 10) = BitVec.ofNat 10 0 from rfl, haddress,
    show (0 : BitVec 6) = BitVec.ofNat 6 0 from rfl, hstray]
  omega

end Word

namespace Operation

/-- Whether an instruction can have these fields, apart from their sizes: a WAIT takes time and a JUMP goes to a
word. -/
def Sane : Operation → Prop
  | wait duration => duration ≠ 0
  | jump _ _ _ address => address ≠ 0
  | _ => True

variable {op : Operation} {w : Word}

/-- The four kinds of words. -/
theorem ofWord_cases (w : Word) :
    (w.toNat / 0x40000000 = 0 ∧ ofWord w = wait w.toNat) ∨
    (w.toNat / 0x40000000 = 1 ∧ ofWord w = jump (w.toNat / 0x20000000 % 2 == 1) (w.toNat / 0x4000000 % 8)
      (w.toNat / 0x400 % 0x10000) (w.toNat % 0x400)) ∨
    (w.toNat / 0x40000000 = 2 ∧ ofWord w = set (w.toNat % 0x1000000)) ∨
    (w.toNat / 0x40000000 = 3 ∧ ofWord w = stop) := by
  have hw := w.isLt
  have hop : w.toNat / 0x40000000 = 0 ∨ w.toNat / 0x40000000 = 1 ∨ w.toNat / 0x40000000 = 2 ∨
      w.toNat / 0x40000000 = 3 := by omega
  rcases hop with hop | hop | hop | hop <;> rw [ofWord] <;> simp only [hop]
  · refine .inl ⟨trivial, congrArg wait (Nat.mod_eq_of_lt ?_)⟩
    unfold Word.durationLimit
    omega
  · exact .inr (.inl ⟨trivial, rfl⟩)
  · exact .inr (.inr (.inl ⟨trivial, rfl⟩))
  · exact .inr (.inr (.inr ⟨trivial, trivial⟩))

/-- What is read from a word fits into one. -/
theorem fits_ofWord (w : Word) : (ofWord w).Fits := by
  obtain ⟨hop, hw⟩ | ⟨-, hw⟩ | ⟨-, hw⟩ | ⟨-, hw⟩ := ofWord_cases w <;> rw [hw]
  · unfold Fits Word.durationLimit
    omega
  · unfold Fits Word.channelLimit Word.thresholdLimit Word.addressLimit
    omega
  · unfold Fits Word.busLimit
    omega
  · trivial

/-- Canonical words are written back as they were read. -/
theorem toWord_ofWord (h : w.Canonical) : (ofWord w).toWord = w := by
  rw [Word.canonical_iff] at h
  have hfits := fits_ofWord w
  refine BitVec.eq_of_toNat_eq ?_
  obtain ⟨hop, hw⟩ | ⟨hop, hw⟩ | ⟨hop, hw⟩ | ⟨hop, hw⟩ := ofWord_cases w <;> rw [hw] at hfits ⊢
  · exact toNat_toWord_wait hfits
  · rw [toNat_toWord_jump hfits.1 hfits.2.1 hfits.2.2]
    have hbit : (if (w.toNat / 0x20000000 % 2 == 1) = true then 0x20000000 else 0) =
        w.toNat / 0x20000000 % 2 * 0x20000000 := by
      rcases Nat.mod_two_eq_zero_or_one (w.toNat / 0x20000000) with hbit | hbit <;> simp [hbit]
    rw [hbit]
    omega
  · rw [toNat_toWord_set hfits]
    omega
  · have : w.toNat = 0xC0000000 := by omega
    rw [this]
    rfl

/-- Fields that fit and make sense have a canonical word. -/
theorem canonical_toWord (h : op.Fits) (hs : op.Sane) : op.toWord.Canonical := by
  rw [Word.canonical_iff]
  cases op with
  | wait duration =>
    rw [toNat_toWord_wait h]
    unfold Fits Word.durationLimit at h
    exact .inl ⟨Nat.div_eq_of_lt h, hs⟩
  | jump always channel threshold address =>
    rw [toNat_toWord_jump h.1 h.2.1 h.2.2]
    unfold Fits Word.channelLimit Word.thresholdLimit Word.addressLimit at h
    have hne : address ≠ 0 := hs
    refine .inr (.inl ?_)
    split <;> omega
  | set value =>
    rw [toNat_toWord_set h]
    unfold Fits Word.busLimit at h
    refine .inr (.inr (.inl ?_))
    omega
  | stop => exact .inr (.inr (.inr rfl))

/-- Canonical words are read as fields that make sense. -/
theorem sane_ofWord (h : w.Canonical) : (ofWord w).Sane := by
  rw [Word.canonical_iff] at h
  obtain ⟨hop, hw⟩ | ⟨hop, hw⟩ | ⟨hop, hw⟩ | ⟨hop, hw⟩ := ofWord_cases w <;>
    rw [hw] <;> unfold Sane <;> first | trivial | omega

end Operation

/-! ## Instructions -/

/-- The numbers of an instruction are whole ones. -/
def Instruction.Whole (i : Instruction) : Prop :=
  match i.action with
  | .wait duration => duration.isWhole = true
  | .jump _ channel threshold _ => channel.isWhole = true ∧ threshold.isWhole = true
  | _ => True

namespace Board

/-- The fields of an instruction: the duration of a WAIT, what a SET puts on the wires, the test of a JUMP and the
address of its target. -/
inductive Denotes (b : Board) (l : Label) : Operation → Prop
  | wait {duration : Binary64} {n : Nat} (h : (b.get l).action = .wait duration) (hn : duration.value = n) :
      Denotes b l (.wait n)
  | set {d : Drive} {n : Nat} (h : (b.get l).action = .set d) (hn : (n : Int) = Bits.xor d.value d.polarity) :
      Denotes b l (.set n)
  | jump {always : Bool} {channel threshold : Binary64} {target : Label} {c t a : Nat}
      (h : (b.get l).action = .jump always channel threshold target) (hc : channel.value = c) (ht : threshold.value = t)
      (ha : (b.get target).address = some (a : Int)) : Denotes b l (.jump always c t a)
  | stop (h : (b.get l).action = .stop) : Denotes b l .stop

variable {b : Board} {l : Label} {op : Operation} {w : Word}

/-- What an instruction that can be encoded looks like. -/
theorem operation_cases (h : b.operation l = .ok op) :
    (∃ duration, (b.get l).action = .wait duration ∧ duration.isWhole = true ∧ 1 ≤ duration ∧
      duration < .ofNat Word.durationLimit ∧ op = .wait duration.toWhole.toNat) ∨
    (∃ d, (b.get l).action = .set d ∧ physical d < Word.busLimit ∧ op = .set (physical d)) ∨
    (∃ always channel threshold target address, (b.get l).action = .jump always channel threshold target ∧
      l ∈ (b.get target).reachedBy ∧ (b.get target).address = some address ∧
      (¬ channel < 0 ∧ ¬ .ofNat (Word.channelLimit - 1) < channel) ∧
      (¬ threshold < 0 ∧ ¬ .ofNat (Word.thresholdLimit - 1) < threshold) ∧
      (1 ≤ address ∧ address ≤ (Word.addressLimit - 1 : Nat)) ∧
      op = .jump always channel.toWhole.toNat threshold.toWhole.toNat address.toNat) ∨
    ((b.get l).action = .stop ∧ op = .stop) := by
  unfold operation at h
  simp only at h
  split at h
  · rename_i duration hact
    split at h
    · rename_i hfits
      rw [Bool.and_eq_true, Bool.and_eq_true, decide_eq_true_eq, decide_eq_true_eq] at hfits
      exact .inl ⟨duration, hact, hfits.1.1, hfits.1.2, hfits.2, (Except.ok.inj h).symm⟩
    · cases h
  · rename_i d hact
    split at h
    · rename_i hlt
      exact .inr (.inl ⟨d, hact, hlt, (Except.ok.inj h).symm⟩)
    · cases h
  · rename_i always channel threshold target hact
    split at h
    · cases h
    rename_i hreached
    split at h
    · cases h
    rename_i address haddress
    split at h
    · cases h
    rename_i hchannel
    split at h
    · cases h
    rename_i hthreshold
    split at h
    · cases h
    rename_i hrange
    refine .inr (.inr (.inl ⟨always, channel, threshold, target, address, hact, ?_, haddress, not_or.1 hchannel,
      not_or.1 hthreshold, by omega, (Except.ok.inj h).symm⟩))
    simpa using hreached
  · rename_i hact
    exact .inr (.inr (.inr ⟨hact, (Except.ok.inj h).symm⟩))

theorem limits_le : Word.durationLimit ≤ Binary64.significandLimit ∧ Word.channelLimit - 1 ≤ Binary64.significandLimit ∧
    Word.thresholdLimit - 1 ≤ Binary64.significandLimit := by
  decide

/-- Fields that are encoded fit and make sense. -/
theorem fits_of_operation (h : b.operation l = .ok op) : op.Fits ∧ op.Sane := by
  obtain ⟨hduration, hchannel, hthreshold⟩ := limits_le
  obtain ⟨duration, -, hwhole, hone, hlt, rfl⟩ | ⟨d, -, hlt, rfl⟩ |
    ⟨always, channel, threshold, target, address, -, -, -, hc, ht, ha, rfl⟩ | ⟨-, rfl⟩ := operation_cases h
  · rw [Binary64.ofNat_eq hduration] at hlt
    have hlt := (Binary64.lt_finite_iff hwhole Word.durationLimit).1 hlt
    rw [Binary64.one_eq] at hone
    have hone : 1 ≤ duration.toWhole := by
      have hvalue := (Binary64.le_iff_value rfl (Binary64.isFinite_of_isWhole hwhole)).1 hone
      rw [Binary64.value_eq_toWhole hwhole, show (Binary64.finite 1).value = 1 from rfl] at hvalue
      exact_mod_cast hvalue
    unfold Operation.Fits Operation.Sane
    omega
  · exact ⟨hlt, trivial⟩
  · have hc := Binary64.toWhole_mem hchannel hc.1 hc.2
    have ht := Binary64.toWhole_mem hthreshold ht.1 ht.2
    unfold Operation.Fits Operation.Sane Word.channelLimit Word.thresholdLimit Word.addressLimit
    unfold Word.channelLimit at hc
    unfold Word.thresholdLimit at ht
    unfold Word.addressLimit at ha
    omega
  · exact ⟨trivial, trivial⟩

/-- Whole fields are encoded as they are. -/
theorem denotes_of_operation (hi : (b.get l).Whole) (h : b.operation l = .ok op) : b.Denotes l op := by
  obtain ⟨-, hchannel, hthreshold⟩ := limits_le
  have hvalue : ∀ {x : Binary64}, x.isWhole = true → 0 ≤ x.toWhole → x.value = x.toWhole.toNat := fun {x} hx h0 => by
    rw [Binary64.value_eq_toWhole hx]
    exact_mod_cast congrArg (Int.cast (R := Rat)) (Int.toNat_of_nonneg h0).symm
  have hfits := fits_of_operation h
  obtain ⟨duration, hact, hwhole, -, -, rfl⟩ | ⟨d, hact, hlt, rfl⟩ |
    ⟨always, channel, threshold, target, address, hact, -, haddress, hc, ht, ha, rfl⟩ | ⟨hact, rfl⟩ := operation_cases h
  · have hne : duration.toWhole.toNat ≠ 0 := hfits.2
    exact .wait hact (hvalue hwhole (by omega))
  · refine .set hact (Bits.unsigned_xor_eq ?_)
    unfold Word.busLimit at hlt
    exact lt_trans hlt (by decide)
  · rw [Instruction.Whole, hact] at hi
    have hc := Binary64.toWhole_mem hchannel hc.1 hc.2
    have ht := Binary64.toWhole_mem hthreshold ht.1 ht.2
    refine .jump hact (hvalue hi.1 hc.1) (hvalue hi.2 ht.1) ?_
    rw [haddress, Int.toNat_of_nonneg (by omega)]
  · exact .stop hact

theorem encode_eq_ok : b.encode l = .ok w ↔ ∃ op, b.operation l = .ok op ∧ op.toWord = w := by
  unfold encode
  cases b.operation l <;> simp [Except.map]

end Board

/-! ## There and back -/

/-- The action with given fields; a JUMP goes to label 1. -/
def Operation.action : Operation → Action
  | wait duration => .wait (.ofNat duration)
  | jump always channel threshold _ => .jump always (.ofNat channel) (.ofNat threshold) 1
  | set value => .set ⟨value, value, 0, false⟩
  | stop => .stop

/-- The address that a JUMP with given fields goes to. -/
def Operation.goal : Operation → Int
  | jump _ _ _ address => address
  | _ => 0

/-- A board with an instruction of given fields at label 0, and the target of a JUMP at label 1. -/
def Operation.sheet (op : Operation) : Board :=
  ⟨#[⟨0, none, none, [], op.action⟩, ⟨0, none, some op.goal, [0], .stop⟩]⟩

theorem Operation.operation_sheet {op : Operation} (h : op.Fits) (hs : op.Sane) : op.sheet.operation 0 = .ok op := by
  obtain ⟨hduration, hchannel, hthreshold⟩ := Board.limits_le
  cases op with
  | wait n =>
    have hn : n ≠ 0 := hs
    have hok : ((Binary64.ofNat n).isWhole && decide (1 ≤ Binary64.ofNat n) &&
        decide (Binary64.ofNat n < .ofNat Word.durationLimit)) = true :=
      (Binary64.duration_iff (Int.natCast_nonneg n)).2 ⟨by omega, by exact_mod_cast h⟩
    have hwhole : (Binary64.ofNat n).toWhole = n := by
      rw [Binary64.ofNat_eq ((Nat.le_of_lt h).trans hduration)]
      exact Binary64.toWhole_finite_intCast n
    change (if _ then _ else _) = _
    rw [if_pos hok, hwhole]
    rfl
  | set value =>
    have hvalue : Board.physical ⟨value, value, 0, false⟩ = value := by
      have hlt : value < 2 ^ 32 := lt_trans h (by decide)
      rw [Board.physical, Bits.unsigned, Bits.bits_xor, Bits.bits_zero, BitVec.xor_zero, Bits.bits,
        BitVec.ofInt_natCast, BitVec.toNat_ofNat, Nat.mod_eq_of_lt hlt]
    change (if Board.physical ⟨value, value, 0, false⟩ < Word.busLimit then _ else _) = _
    rw [if_pos (by rwa [hvalue]), hvalue]
  | jump always channel threshold address =>
    obtain ⟨hc, ht, ha⟩ := h
    have hcle : channel ≤ Word.channelLimit - 1 := by omega
    have htle : threshold ≤ Word.thresholdLimit - 1 := by omega
    have hne : address ≠ 0 := hs
    have hnot : ∀ {n k : Nat}, k ≤ Binary64.significandLimit → n ≤ k →
        ¬ (Binary64.ofNat n < 0 ∨ Binary64.ofNat k < Binary64.ofNat n) := fun {n k} hk hn => by
      rw [Binary64.ofNat_eq hk, Binary64.ofNat_eq (hn.trans hk), Binary64.zero_eq, Binary64.finite_lt,
        Binary64.finite_lt]
      push Not
      exact ⟨by positivity, by exact_mod_cast hn⟩
    have hwhole : ∀ {n k : Nat}, k ≤ Binary64.significandLimit → n ≤ k → (Binary64.ofNat n).toWhole = n :=
      fun {n k} hk hn => by
        rw [Binary64.ofNat_eq (hn.trans hk)]
        exact Binary64.toWhole_finite_intCast n
    have haddress : ¬ ((jump always channel threshold address).goal < 1 ∨
        ((Word.addressLimit - 1 : Nat) : Int) < (jump always channel threshold address).goal) := by
      change ¬ ((address : Int) < 1 ∨ ((Word.addressLimit - 1 : Nat) : Int) < address)
      omega
    change (if _ then _ else if _ then _ else if _ then _ else _) = _
    rw [if_neg (hnot hchannel hcle), if_neg (hnot hthreshold htle), if_neg haddress, hwhole hchannel hcle,
      hwhole hthreshold htle]
    rfl
  | stop => rfl

/-- Encoding and decoding undo each other. An instruction with whole numbers whose encoding succeeds is read back from
its word field by field. A word is that of some instruction exactly if encoding what is read from it gives it back, and
these are the canonical words. -/
theorem Board.encode_inverse :
    (∀ (b : Board) (l : Label) (w : Word), (b.get l).Whole → b.encode l = .ok w → b.Denotes l (.ofWord w)) ∧
    ∀ w : Word, ((∃ b l, Board.encode b l = .ok w) ↔ (Operation.ofWord w).sheet.encode 0 = .ok w) ∧
      ((∃ b l, Board.encode b l = .ok w) ↔ w.Canonical) := by
  refine ⟨fun b l w hi h => ?_, fun w => ?_⟩
  · obtain ⟨op, hop, rfl⟩ := encode_eq_ok.1 h
    rw [Operation.ofWord_toWord (fits_of_operation hop).1]
    exact denotes_of_operation hi hop
  · have hcanonical : (∃ b l, Board.encode b l = .ok w) → w.Canonical := by
      rintro ⟨b, l, h⟩
      obtain ⟨op, hop, rfl⟩ := encode_eq_ok.1 h
      exact Operation.canonical_toWord (fits_of_operation hop).1 (fits_of_operation hop).2
    have hback : w.Canonical → (Operation.ofWord w).sheet.encode 0 = .ok w := fun h =>
      encode_eq_ok.2 ⟨_, Operation.operation_sheet (Operation.fits_ofWord w) (Operation.sane_ofWord h),
        Operation.toWord_ofWord h⟩
    exact ⟨⟨fun h => hback (hcanonical h), fun h => ⟨_, _, h⟩⟩, ⟨hcanonical, fun h => ⟨_, _, hback h⟩⟩⟩

/-- A JUMP on channel 5 from 700 counts on, to word 9. -/
theorem Board.encode_inverse_jump : let b := (Operation.jump false 5 700 9).sheet
    (b.get 0).Whole ∧ ∃ w, b.encode 0 = .ok w ∧ b.Denotes 0 (.ofWord w) ∧ Operation.ofWord w = .jump false 5 700 9 := by
  intro b
  have hwhole : (b.get 0).Whole := ⟨by decide +kernel, by decide +kernel⟩
  have hencode : b.encode 0 = .ok 0x540AF009 := by decide +kernel
  exact ⟨hwhole, _, hencode, Board.encode_inverse.1 b 0 _ hwhole hencode, by decide⟩

end PulseSequencer
