import PulseSequencer.Proofs.Checks

/-!
# Ids on the control register

An id is spread onto the outputs of the register in Gray code, and can be read back from there.

* `Gray.decode_eq` : a code gives back its id;
* `Register.Numbered` : a register with all of its bits, on outputs of their own;
* `Register.Numbered.bit_valueOf_stateOf` : a value that is spread onto the bus can be gathered back;
* `Register.Numbered.decode_valueOf` : the id behind the bits of the register.
-/

namespace PulseSequencer

/-! ## Gray code -/

namespace Bits

theorem bit_half {a : Int} (ha : bit a 31 = false) (i : Nat) : bit (half a) i = bit a (i + 1) := by
  have hmsb : (bits a).msb = false := by rw [BitVec.msb_eq_getLsbD_last]; exact ha
  show (bits (half a)).getLsbD i = (bits a).getLsbD (i + 1)
  rw [half, bits_toInt, BitVec.sshiftRight_eq_of_msb_false hmsb, BitVec.getLsbD_ushiftRight, Nat.add_comm]

theorem toInt_bits {n : Nat} (h : n < 2 ^ 31) : (bits n).toInt = n := by
  rw [bits, BitVec.toInt_ofInt]
  apply Int.bmod_eq_of_le <;> omega

theorem bit_natCast {n : Nat} (h : n < 2 ^ 32) (i : Nat) : bit n i = n.testBit i := by
  show (bits n).getLsbD i = _
  rw [bits, BitVec.ofInt_natCast, BitVec.getLsbD_ofNat]
  by_cases hi : i < 32
  · rw [decide_eq_true hi, Bool.true_and]
  · rw [decide_eq_false hi, Bool.false_and]
    exact (Nat.testBit_lt_two_pow (lt_of_lt_of_le h (Nat.pow_le_pow_right (by decide) (Nat.not_lt.1 hi)))).symm

end Bits

namespace Gray

open Bits

/-- Adding the shifts of a code takes back one step of the encoding after the other. -/
theorem addShifts_encode {n : Int} (hn : bit n 31 = false) : ∀ {steps k : Nat} {shift sum : Int}, 32 ≤ steps + k →
    (∀ i, bit shift i = (bit n (k + i) ^^ bit n (k + i + 1))) → (∀ i, bit sum i = (bit n i ^^ bit n (k + i))) →
    ∀ i, bit (addShifts steps shift sum) i = bit n i := by
  intro steps
  induction steps with
  | zero =>
    intro k shift sum hk _ hsum i
    rw [addShifts, hsum, bit_of_le (show 32 ≤ k + i by omega), Bool.xor_false]
  | succ steps ih =>
    intro k shift sum hk hshift hsum i
    unfold addShifts
    split
    · -- the code is used up: no bit of `n` differs from the next one from here on, and the last one is clear
      rename_i hzero
      have hnext : ∀ j, bit n (k + j) = bit n (k + (j + 1)) := fun j => by
        have := hshift j
        rw [hzero, bit_zero] at this
        simpa [← Nat.add_assoc] using this.symm
      have hall : ∀ j, bit n (k + i) = bit n (k + i + j) := by
        intro j
        induction j with
        | zero => rfl
        | succ j ih => rw [ih, Nat.add_assoc, hnext (i + j), show k + (i + j + 1) = k + i + (j + 1) by omega]
      rw [hsum, hall 32, bit_of_le (show 32 ≤ k + i + 32 by omega), Bool.xor_false]
    · have h31 : bit shift 31 = false := by
        rw [hshift, bit_of_le (show 32 ≤ k + 31 + 1 by omega), Bool.xor_false]
        cases k with
        | zero => exact hn
        | succ k => exact bit_of_le (by omega)
      apply @ih (k + 1) _ _ (by omega)
      · intro j
        rw [bit_half h31, hshift, show k + (j + 1) = k + 1 + j by omega]
      · intro j
        rw [bit_xor, hsum, hshift, show k + j + 1 = k + 1 + j by omega]
        cases bit n j <;> cases bit n (k + j) <;> cases bit n (k + 1 + j) <;> rfl

theorem bit_encode {n : Int} (hn : bit n 31 = false) (i : Nat) : bit (encode n) i = (bit n i ^^ bit n (i + 1)) := by
  rw [encode, bit_xor, bit_half hn]

theorem toInt_bits_addShifts {steps : Nat} : ∀ {shift sum : Int}, (bits sum).toInt = sum →
    (bits (addShifts steps shift sum)).toInt = addShifts steps shift sum := by
  induction steps with
  | zero => exact fun h => h
  | succ steps ih =>
    intro shift sum h
    unfold addShifts
    split
    · exact h
    · apply ih
      rw [bits_xor]
      rfl

/-- A code gives back its id. -/
theorem decode_eq {id : Nat} (hid : id < 2 ^ 31) {gray : Int} (hcode : (bits gray).toInt = gray)
    (hgray : ∀ i, bit gray i = bit (encode id) i) : decode gray = id := by
  have hn : bit id 31 = false := by
    rw [bit_natCast (by omega)]
    exact Nat.testBit_lt_two_pow hid
  have h31 : bit gray 31 = false := by
    rw [hgray, bit_encode hn, hn, bit_of_le (le_refl 32)]
    rfl
  have hbits : bits (decode gray) = bits id := by
    refine bits_eq_iff.2 (addShifts_encode hn (by omega : 32 ≤ 32 + 1) (fun i => ?_) fun i => ?_)
    · rw [bit_half h31, hgray, bit_encode hn, Nat.add_comm 1 i]
    · rw [hgray, bit_encode hn, Nat.add_comm 1 i]
  rw [← toInt_bits hid, ← hbits]
  exact (toInt_bits_addShifts hcode).symm

/-- A code needs no more digits than its id. -/
theorem bit_encode_of_lt {id width : Nat} (hid : id < 2 ^ width) (hwidth : width ≤ 31) {i : Nat} (hi : width ≤ i) :
    bit (encode id) i = false := by
  have hbit : ∀ j, width ≤ j → bit id j = false := fun j hj => by
    rw [bit_natCast (lt_of_lt_of_le hid (Nat.pow_le_pow_right (by decide) (by omega)))]
    exact Nat.testBit_lt_two_pow (lt_of_lt_of_le hid (Nat.pow_le_pow_right (by decide) hj))
  rw [bit_encode (hbit 31 hwidth), hbit i hi, hbit (i + 1) (by omega)]
  rfl

end Gray

/-! ## The register -/

/-- The register has all of its bits, and every one has an output of its own. -/
structure Register.Numbered (r : Register) : Prop where
  bit : ∀ i < r.length, ∃ b ∈ r, b.bit.toWhole = i
  output : ∀ b ∈ r, Hardware.Numbers Hardware.outputLimit b.output
  outputs : r.Pairwise fun x y => x.output.toWhole ≠ y.output.toWhole

theorem Binary64.toWhole_of_sameKey {x : Binary64} {n : Nat} (hn : n ≤ significandLimit)
    (h : x.sameKey (.ofNat n) = true) : x.toWhole = n := by
  rw [ofNat_eq hn] at h
  have hequal : x.equal (finite n) = true := by simpa [sameKey, isNaN] using h
  have hboth : x ≤ finite n ∧ finite n ≤ x := Bool.and_eq_true_iff.1 hequal
  cases x with
  | finite q =>
    rw [le_antisymm (finite_le.1 hboth.1) (finite_le.1 hboth.2)]
    exact toWhole_finite_intCast n
  | negZero =>
    have : (n : Rat) ≤ 0 := (le_iff_value rfl rfl).1 hboth.2
    have : n = 0 := by exact_mod_cast le_antisymm this (Nat.cast_nonneg n)
    subst this
    rfl
  | infinite negative => cases negative <;> simp [sameKey, equal, isNaN, Binary64.le, Binary64.lt] at h
  | nan => simp [sameKey, equal, isNaN, Binary64.le] at h

/-- There are no more bits than outputs. -/
theorem Hardware.length_le_of_outputs {r : List RegisterBit} (hr : ∀ b ∈ r, Numbers outputLimit b.output)
    (hpairs : r.Pairwise fun x y => x.output.toWhole ≠ y.output.toWhole) : r.length ≤ outputLimit := by
  have hnodup : (r.map fun b => b.output.toWhole.toNat).Nodup := by
    apply List.pairwise_map.2
    refine hpairs.imp_of_mem fun hx hy hne heq => ?_
    have := (hr _ hx).nonneg
    have := (hr _ hy).nonneg
    omega
  have hsub : (r.map fun b => b.output.toWhole.toNat).Subperm (List.range outputLimit) := by
    refine hnodup.subperm fun n hn => ?_
    obtain ⟨b, hb, rfl⟩ := List.mem_map.1 hn
    have := (hr b hb).lt
    have := (hr b hb).nonneg
    exact List.mem_range.2 (by omega)
  simpa using hsub.length_le

theorem Hardware.checkRegister_of_check {h : Hardware} (hc : h.check = .ok ()) : h.checkRegister = .ok () := by
  unfold check at hc
  simp only at hc
  split at hc
  · cases hc
  obtain ⟨⟨⟩, -, hc⟩ := Except.bind_eq_ok.1 hc
  obtain ⟨⟨⟩, -, hc⟩ := Except.bind_eq_ok.1 hc
  obtain ⟨⟨⟩, hreg, -⟩ := Except.bind_eq_ok.1 hc
  exact hreg

theorem Hardware.numbered_of_check {h : Hardware} (hc : h.check = .ok ()) : Register.Numbered h.register := by
  have hregister := (checked_of_check hc).register
  obtain ⟨⟨⟩, hbits, hreg⟩ := Except.bind_eq_ok.1 (checkRegister_of_check hc)
  obtain ⟨⟨⟩, -, hreg⟩ := Except.bind_eq_ok.1 hreg
  obtain ⟨⟨⟩, houtputs, -⟩ := Except.bind_eq_ok.1 hreg
  have hpairs := pairwise_of_checkUniqueChannels hregister houtputs
  refine ⟨fun i hi => ?_, hregister, hpairs⟩
  have hlen := length_le_of_outputs hregister hpairs
  have hbit := Except.forM_eq_ok.1 hbits i (List.mem_range.2 hi)
  split at hbit
  · rename_i hholds
    obtain ⟨c, hc, hsame⟩ := List.any_eq_true.1 hholds
    obtain ⟨b, hb, rfl⟩ := List.mem_map.1 hc
    refine ⟨b, hb, Binary64.toWhole_of_sameKey ?_ hsame⟩
    unfold outputLimit at hlen
    unfold Binary64.significandLimit
    omega
  · cases hbit

theorem Sequence.numbered_of_verify {s : Sequence} (h : s.verify.outcome = .ok ()) :
    Register.Numbered s.hardware.register := by
  obtain ⟨⟨⟩, -, h⟩ := Attempt.bind_eq_ok.1 h
  obtain ⟨⟨⟩, hhard, -⟩ := Attempt.bind_eq_ok.1 h
  exact Hardware.numbered_of_check (Attempt.ofExcept_eq_ok.1 hhard)

namespace Register

variable {r : Register}

theorem Numbered.length_le (h : Numbered r) : r.length ≤ Hardware.outputLimit :=
  Hardware.length_le_of_outputs h.output h.outputs

theorem Numbered.eq_of_position (h : Numbered r) {x y : RegisterBit} (hx : x ∈ r) (hy : y ∈ r)
    (hpos : Bits.position x.output.toWhole = Bits.position y.output.toWhole) : x = y := by
  have hlimit : Hardware.outputLimit = 24 := rfl
  obtain ⟨-, hx0, hx1⟩ := h.output x hx
  obtain ⟨-, hy0, hy1⟩ := h.output y hy
  rw [Bits.position_of_lt hx0 (by omega), Bits.position_of_lt hy0 (by omega)] at hpos
  by_contra hne
  have : Std.Symm fun x y : RegisterBit => x.output.toWhole ≠ y.output.toWhole := ⟨fun _ _ h => h.symm⟩
  exact h.outputs.forall hx hy hne (by omega)

theorem bit_stateOf (value : Int) (i : Nat) : Bits.bit (r.stateOf value) i =
    r.any fun b => Bits.test value b.bit.toWhole && decide (i = Bits.position b.output.toWhole) := by
  rw [stateOf, Hardware.bit_maskOf, List.any_map, List.any_filter]
  rfl

theorem bit_valueOf (state : Int) (i : Nat) : Bits.bit (r.valueOf state) i =
    r.any fun b => Bits.test state b.output.toWhole && decide (i = Bits.position b.bit.toWhole) := by
  rw [valueOf, Hardware.bit_maskOf, List.any_map, List.any_filter]
  rfl

theorem bit_mask_output {b : RegisterBit} (hb : b ∈ r) : Bits.bit r.mask (Bits.position b.output.toWhole) = true := by
  rw [mask, Hardware.bit_maskOf, List.any_map, List.any_eq_true]
  exact ⟨b, hb, decide_eq_true rfl⟩

/-- Gathering reads the bits of the register only. -/
theorem valueOf_congr {a b : Int} (h : ∀ i, Bits.bit r.mask i = true → Bits.bit a i = Bits.bit b i) :
    r.valueOf a = r.valueOf b := by
  rw [valueOf, valueOf]
  congr 2
  refine List.filter_congr fun x hx => ?_
  rw [Bits.test_eq_bit, Bits.test_eq_bit, h _ (bit_mask_output hx)]

/-- The output of a bit has what the value has on the bit. -/
theorem Numbered.test_stateOf (h : Numbered r) (value : Int) {b : RegisterBit} (hb : b ∈ r) :
    Bits.test (r.stateOf value) b.output.toWhole = Bits.test value b.bit.toWhole := by
  rw [Bits.test_eq_bit, bit_stateOf, Bool.eq_iff_iff, List.any_eq_true]
  constructor
  · rintro ⟨x, hx, hboth⟩
    rw [Bool.and_eq_true, decide_eq_true_eq] at hboth
    rw [h.eq_of_position hb hx hboth.2]
    exact hboth.1
  · exact fun hb' => ⟨b, hb, by rw [hb']; simp⟩

theorem Numbered.bit_valueOf_stateOf (h : Numbered r) {value : Int}
    (hvalue : ∀ i, r.length ≤ i → Bits.bit value i = false) (i : Nat) :
    Bits.bit (r.valueOf (r.stateOf value)) i = Bits.bit value i := by
  rw [bit_valueOf, Bool.eq_iff_iff, List.any_eq_true]
  constructor
  · rintro ⟨b, hb, hboth⟩
    rw [Bool.and_eq_true, decide_eq_true_eq, h.test_stateOf value hb, Bits.test_eq_bit] at hboth
    rw [hboth.2]
    exact hboth.1
  · intro hi
    have hlt : i < r.length := by
      by_contra hge
      rw [hvalue i (Nat.not_lt.1 hge)] at hi
      cases hi
    obtain ⟨b, hb, hbit⟩ := h.bit i hlt
    have hlen := h.length_le
    have hpos : Bits.position b.bit.toWhole = i := by
      rw [hbit, Bits.position_of_lt (by omega) (by unfold Hardware.outputLimit at hlen; omega)]
      rfl
    exact ⟨b, hb, by rw [h.test_stateOf value hb, Bits.test_eq_bit, hpos, hi]; simp⟩

/-- The id behind the bits of the register. -/
theorem Numbered.decode_valueOf (h : Numbered r) {id : Nat} (hid : id ≤ r.capacity) {state : Int}
    (hstate : ∀ i, Bits.bit r.mask i = true → Bits.bit state i = Bits.bit (r.stateOf (Gray.encode id)) i) :
    Gray.decode (r.valueOf state) = id := by
  have hlen := h.length_le
  unfold Hardware.outputLimit at hlen
  have hlt : id < 2 ^ r.length := by
    have : 0 < 2 ^ r.length := Nat.pow_pos (by decide)
    have : r.capacity = 2 ^ r.length - 1 := rfl
    omega
  rw [valueOf_congr hstate]
  apply Gray.decode_eq (lt_of_lt_of_le hlt (Nat.pow_le_pow_right (by decide) (by omega)))
  · exact Bits.toInt_bits_foldl_or Binary64.toWhole _ rfl
  · exact h.bit_valueOf_stateOf fun i hi => Gray.bit_encode_of_lt hlt (by omega) hi

end Register

end PulseSequencer
