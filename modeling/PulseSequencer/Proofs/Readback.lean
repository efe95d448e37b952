import PulseSequencer.Proofs.Register

/-!
# Ids are read back

The Gray code is a permutation of the numbers below `2 ^ 31` that changes one bit from each number to the next. An id
that is written onto the register of checked hardware can be read back from the bus, and from the inputs of the
register.

* `Gray.decode_encode`, `Gray.encode_decode` : coding and decoding undo each other;
* `Gray.existsUnique_ne_succ` : the codes of neighbours differ in one bit;
* `Register.Shows`, `Register.Wired.idOfPulse_eq` : the id behind the inputs that are seen together;
* `Register.id_survives` : all of this for the register of checked hardware.
-/

namespace PulseSequencer

/-! ## Gray code -/

namespace Gray

open Bits

theorem bit_encode_natCast {n : Nat} (hn : n < 2 ^ 31) (i : Nat) :
    bit (encode n) i = (n.testBit i ^^ n.testBit (i + 1)) := by
  have hbit : ∀ j, bit n j = n.testBit j := fun j => bit_natCast (by omega) j
  have h31 : bit n 31 = false := by
    rw [hbit]
    exact Nat.testBit_lt_two_pow hn
  rw [bit_encode h31, hbit, hbit]

/-- A code is the number whose bits it has. -/
theorem toInt_bits_encode (n : Int) : (bits (encode n)).toInt = encode n := by
  rw [encode, bits_xor]
  rfl

theorem encode_natCast {n : Nat} (hn : n < 2 ^ 31) : encode n = (n ^^^ (n >>> 1) : Nat) := by
  have hlt : n ^^^ (n >>> 1) < 2 ^ 31 := Nat.xor_lt_two_pow hn (lt_of_le_of_lt (Nat.shiftRight_le n 1) hn)
  have hbits : bits (encode n) = bits (n ^^^ (n >>> 1) : Nat) := by
    rw [bits_eq_iff]
    intro i
    rw [bit_encode_natCast hn, bit_natCast (by omega), Nat.testBit_xor, Nat.testBit_shiftRight, Nat.add_comm 1 i]
  rw [← toInt_bits_encode, hbits, toInt_bits hlt]

theorem decode_encode {n : Nat} (hn : n < 2 ^ 31) : decode (encode n) = n :=
  decode_eq hn (toInt_bits_encode n) fun _ => rfl

/-- Every number is a code: the codes are as many as the numbers, and no two numbers have the same one. -/
theorem exists_encode_eq {n : Nat} (hn : n < 2 ^ 31) : ∃ m : Nat, m < 2 ^ 31 ∧ encode m = n := by
  let code : Fin (2 ^ 31) → Fin (2 ^ 31) := fun m =>
    ⟨m.val ^^^ (m.val >>> 1), Nat.xor_lt_two_pow m.isLt (lt_of_le_of_lt (Nat.shiftRight_le _ 1) m.isLt)⟩
  have hinj : Function.Injective code := by
    intro a b hab
    have hcode : encode a.val = encode b.val := by
      rw [encode_natCast a.isLt, encode_natCast b.isLt]
      exact congrArg (fun c : Fin (2 ^ 31) => (c.val : Int)) hab
    have := congrArg decode hcode
    rw [decode_encode a.isLt, decode_encode b.isLt] at this
    exact Fin.ext (Int.ofNat.inj this)
  obtain ⟨m, hm⟩ := Finite.injective_iff_surjective.1 hinj ⟨n, hn⟩
  refine ⟨m.val, m.isLt, ?_⟩
  rw [encode_natCast m.isLt]
  exact congrArg (fun c : Fin (2 ^ 31) => (c.val : Int)) hm

theorem encode_decode {n : Nat} (hn : n < 2 ^ 31) : encode (decode n) = n := by
  obtain ⟨m, hm, hcode⟩ := exists_encode_eq hn
  rw [← hcode, decode_encode hm]

/-- Counting on by one flips the bits up to the first one that is clear. -/
theorem exists_testBit_ne_succ_iff (n : Nat) : ∃ k, ∀ i, n.testBit i ≠ (n + 1).testBit i ↔ i ≤ k := by
  induction n using Nat.strongRecOn with
  | ind n ih =>
    rcases Nat.even_or_odd' n with ⟨m, rfl | rfl⟩
    · refine ⟨0, fun i => ?_⟩
      cases i with
      | zero => simp
      | succ i =>
        rw [Nat.testBit_succ, Nat.testBit_succ, show 2 * m / 2 = (2 * m + 1) / 2 by omega]
        simp
    · -- the carry goes on into the upper half
      obtain ⟨k, hk⟩ := ih m (by omega)
      refine ⟨k + 1, fun i => ?_⟩
      cases i with
      | zero =>
        rw [Nat.testBit_zero, Nat.testBit_zero]
        simp
        omega
      | succ i =>
        rw [Nat.testBit_succ, Nat.testBit_succ, show (2 * m + 1) / 2 = m by omega,
          show (2 * m + 1 + 1) / 2 = m + 1 by omega, hk, Nat.add_le_add_iff_right]

/-- The codes of neighbours differ in the last bit that counting on by one flips, and in no other one. -/
theorem existsUnique_ne_succ {n : Nat} (hn : n + 1 < 2 ^ 31) :
    ∃! i, bit (encode n) i ≠ bit (encode (n + 1 : Nat)) i := by
  obtain ⟨k, hk⟩ := exists_testBit_ne_succ_iff n
  have hdiffer : ∀ i, bit (encode n) i ≠ bit (encode (n + 1 : Nat)) i ↔ i = k := by
    intro i
    have hi := hk i
    have hi1 := hk (i + 1)
    rw [bit_encode_natCast (by omega), bit_encode_natCast hn]
    revert hi hi1
    cases n.testBit i <;> cases (n + 1).testBit i <;> cases n.testBit (i + 1) <;> cases (n + 1).testBit (i + 1) <;>
      simp <;> omega
  exact ⟨k, (hdiffer k).2 rfl, fun i hi => (hdiffer i).1 hi⟩

end Gray

/-! ## The inputs of the register -/

theorem Binary64.sameKey_comm (x y : Binary64) : x.sameKey y = y.sameKey x := by
  unfold sameKey equal
  rw [Bool.and_comm, Bool.and_comm x.isNaN]

theorem Binary64.sameKey_self_of_isWhole {x : Binary64} (h : x.isWhole = true) : x.sameKey x = true :=
  sameKey_of_toWhole_eq h h rfl

/-- The bits of a register are read back on inputs of their own. -/
structure Register.Wired (r : Register) : Prop extends Register.Numbered r where
  input : ∀ b ∈ r, b.input.isWhole = true
  inputs : r.Pairwise fun x y => x.input.sameKey y.input ≠ true

theorem Hardware.wired_of_check {h : Hardware} (hc : h.check = .ok ()) : Register.Wired h.register := by
  obtain ⟨⟨⟩, -, hreg⟩ := Except.bind_eq_ok.1 (checkRegister_of_check hc)
  obtain ⟨⟨⟩, -, hreg⟩ := Except.bind_eq_ok.1 hreg
  obtain ⟨⟨⟩, -, hreg⟩ := Except.bind_eq_ok.1 hreg
  obtain ⟨⟨⟩, hinputs, hranges⟩ := Except.bind_eq_ok.1 hreg
  refine ⟨numbered_of_check hc, fun b hb => ?_, List.pairwise_map.1 (pairwise_of_checkUnique hinputs).1⟩
  obtain ⟨⟨⟩, -, hrange⟩ := Except.bind_eq_ok.1 (Except.forM_eq_ok.1 hranges b hb)
  exact (numbers_of_checkRange (by decide) hrange).whole

namespace Register

variable {r : Register}

/-- Of the inputs of the register, those seen are the inputs of the bits that the value has. -/
def Shows (r : Register) (value : Int) (inputs : List Binary64) : Prop :=
  ∀ b ∈ r, (inputs.any fun i => i.sameKey b.input) = true ↔
    ∃ c ∈ r, Bits.test value c.bit.toWhole = true ∧ c.input.sameKey b.input = true

instance (r : Register) (value : Int) (inputs : List Binary64) : Decidable (r.Shows value inputs) :=
  inferInstanceAs (Decidable (∀ b ∈ r, _ ↔ ∃ c ∈ r, _))

/-- An input is that of one bit only. -/
theorem Wired.eq_of_sameKey (h : Wired r) {x y : RegisterBit} (hx : x ∈ r) (hy : y ∈ r)
    (hsame : x.input.sameKey y.input = true) : x = y := by
  by_contra hne
  have : Std.Symm fun x y : RegisterBit => x.input.sameKey y.input ≠ true :=
    ⟨fun x y hxy => by rwa [Binary64.sameKey_comm]⟩
  exact h.inputs.forall hx hy hne hsame

/-- A bit is seen exactly if the value has it. -/
theorem Wired.seen_eq (h : Wired r) {value : Int} {inputs : List Binary64} (hshows : r.Shows value inputs)
    {b : RegisterBit} (hb : b ∈ r) :
    (inputs.any fun i => i.sameKey b.input) = Bits.test value b.bit.toWhole := by
  rw [Bool.eq_iff_iff, hshows b hb]
  constructor
  · rintro ⟨c, hc, htest, hsame⟩
    rwa [← h.eq_of_sameKey hc hb hsame]
  · intro htest
    exact ⟨b, hb, htest, Binary64.sameKey_self_of_isWhole (h.input b hb)⟩

/-- The inputs that show a value give it back, as the outputs do that carry it. -/
theorem Wired.valueOfPulse_eq (h : Wired r) {value : Int} {inputs : List Binary64} (hshows : r.Shows value inputs) :
    r.valueOfPulse inputs = r.valueOf (r.stateOf value) := by
  rw [valueOfPulse, valueOf]
  congr 2
  refine List.filter_congr fun b hb => ?_
  rw [h.seen_eq hshows hb, h.test_stateOf value hb]

/-- The id behind the inputs that show its code. -/
theorem Wired.idOfPulse_eq (h : Wired r) {id : Nat} (hid : id ≤ r.capacity) {inputs : List Binary64}
    (hshows : r.Shows (Gray.encode id) inputs) : r.idOfPulse inputs = id := by
  rw [idOfPulse, h.valueOfPulse_eq hshows]
  exact h.decode_valueOf hid fun _ _ => rfl

/-- Ids survive the control register. Below `2 ^ 31`, coding and decoding undo each other, and the codes of neighbours
differ in one bit. An id that the register of checked hardware can carry is read back from every bus state that has its
code on the outputs of the register, and from every collection of inputs that shows its code on those of the
register. -/
theorem id_survives :
    (∀ n : Nat, n < 2 ^ 31 → Gray.decode (Gray.encode n) = n ∧ Gray.encode (Gray.decode n) = n ∧
      (n + 1 < 2 ^ 31 → ∃! i, Bits.bit (Gray.encode n) i ≠ Bits.bit (Gray.encode (n + 1 : Nat)) i)) ∧
    ∀ h : Hardware, h.check = .ok () → ∀ id : Nat, id ≤ capacity h.register →
      (∀ state : Int,
        Bits.and state (mask h.register) = Bits.and (stateOf h.register (Gray.encode id)) (mask h.register) →
          Gray.decode (valueOf h.register state) = id) ∧
      ∀ inputs : List Binary64, Shows h.register (Gray.encode id) inputs → idOfPulse h.register inputs = id := by
  refine ⟨fun n hn => ⟨Gray.decode_encode hn, Gray.encode_decode hn, Gray.existsUnique_ne_succ⟩, fun h hc id hid => ?_⟩
  have hwired := Hardware.wired_of_check hc
  refine ⟨fun state hstate => hwired.decode_valueOf hid fun i hi => ?_, fun inputs => hwired.idOfPulse_eq hid⟩
  have hbit := congrArg (Bits.bit · i) hstate
  simpa [hi] using hbit

/-- A register of three bits in no order, beside an output and a counter. -/
def scrambled : Hardware where
  name := "bench"
  delayUnit := 1
  outputs := [⟨"probe", 5, true, false⟩]
  inputs := [⟨"photon", 3⟩]
  counters := [⟨"counter", 2, 4⟩]
  register := [⟨2, 20, 0⟩, ⟨0, 11, 6⟩, ⟨1, 23, 1⟩]

/-- Id 6 has the code 5, which is on the outputs 20 and 11 and on the inputs 0 and 6. -/
theorem scrambled_six : scrambled.check = .ok () ∧
    Gray.decode (valueOf scrambled.register 0x10083f) = 6 ∧ idOfPulse scrambled.register [6, 3, 0] = 6 ∧
      (∃! i, Bits.bit (Gray.encode (6 : Nat)) i ≠ Bits.bit (Gray.encode (6 + 1 : Nat)) i) := by
  have hcheck : scrambled.check = .ok () := by decide +kernel
  obtain ⟨hgray, hregister⟩ := id_survives
  obtain ⟨hstate, hinputs⟩ := hregister scrambled hcheck 6 (by decide)
  exact ⟨hcheck, hstate _ (by decide +kernel), hinputs _ (by decide +kernel), (hgray 6 (by decide)).2.2 (by decide)⟩

end Register

end PulseSequencer
