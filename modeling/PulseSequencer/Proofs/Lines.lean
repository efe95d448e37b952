import PulseSequencer.Compiler.Pulse
import PulseSequencer.Control.Register
import PulseSequencer.Proofs.Attempt
import PulseSequencer.Proofs.Bits
import PulseSequencer.Proofs.Number

/-!
# Lines of checked hardware

* `Hardware.Checked`, `Hardware.checked_of_check` : what the check of a hardware configuration ensures;
* `Hardware.bit_maskOf`, `Register.bit_complement` : the bits of masks;
* `Pulse.OnLine`, `Pulse.onLine_of_lineOf` : the line of a channel is free of the control register;
* `Pulse.lineOf_ne` : two channels have two lines.
-/

namespace PulseSequencer

namespace Binary64

theorem sameKey_of_toWhole_eq {x y : Binary64} (hx : x.isWhole = true) (hy : y.isWhole = true)
    (h : x.toWhole = y.toWhole) : x.sameKey y = true := by
  have hfx := isFinite_of_isWhole hx
  have hfy := isFinite_of_isWhole hy
  have hle : ∀ {a b : Binary64}, a.isFinite = true → b.isFinite = true → a.value = b.value → a.le b = true :=
    fun ha hb hab => (le_iff_value ha hb).2 hab.le
  have hv : x.value = y.value := by rw [value_eq_toWhole hx, value_eq_toWhole hy, h]
  simp [sameKey, equal, hle hfx hfy hv, hle hfy hfx hv.symm]

end Binary64

namespace Hardware

/-- A whole number that numbers one of `limit` lines. -/
structure Numbers (limit : Nat) (channel : Binary64) : Prop where
  whole : channel.isWhole = true
  nonneg : 0 ≤ channel.toWhole
  lt : channel.toWhole < limit

theorem numbers_of_checkRange {what subject : String} {limit : Nat} {channel : Binary64}
    (hlimit : limit ≤ Binary64.significandLimit) (h : checkRange what subject limit channel = .ok ()) :
    Numbers limit channel := by
  unfold checkRange at h
  split at h
  · rename_i hc
    simp only [Bool.and_eq_true, decide_eq_true_eq] at hc
    obtain ⟨⟨hw, h0⟩, h1⟩ := hc
    rw [Binary64.ofNat_eq hlimit, ← Int.cast_natCast, Binary64.lt_finite_iff hw] at h1
    rw [Binary64.zero_eq, Binary64.le_iff_value rfl (Binary64.isFinite_of_isWhole hw),
      Binary64.value_eq_toWhole hw] at h0
    exact ⟨hw, Int.cast_nonneg_iff.1 h0, h1⟩
  · cases h

theorem ne_of_sameKey {a b : Nat} {x y : Binary64} (hx : Numbers a x) (hy : Numbers b y) (h : x.sameKey y ≠ true) :
    x.toWhole ≠ y.toWhole := fun heq => h (Binary64.sameKey_of_toWhole_eq hx.whole hy.whole heq)

theorem pairwise_of_checkUnique {κ : Type} {same : κ → κ → Bool} {text : κ → String} {what : String}
    {entries : List (κ × String)} : ∀ {seen : List κ}, checkUnique same text what seen entries = .ok () →
    (entries.Pairwise fun a b => same a.1 b.1 ≠ true) ∧ ∀ k ∈ seen, ∀ e ∈ entries, same k e.1 ≠ true := by
  induction entries with
  | nil => simp
  | cons e rest ih =>
    intro seen h
    unfold checkUnique at h
    split at h
    · cases h
    · rename_i hseen
      obtain ⟨hrest, hall⟩ := ih h
      refine ⟨List.pairwise_cons.2 ⟨hall e.1 List.mem_cons_self, hrest⟩, fun k hk x hx => ?_⟩
      rcases List.mem_cons.1 hx with rfl | hx
      · exact fun hsame => hseen (List.any_eq_true.2 ⟨k, hk, hsame⟩)
      · exact hall k (List.mem_cons_of_mem _ hk) x hx

theorem pairwise_of_checkUniqueChannels {α : Type} {what : String} {xs : List α} {channel : α → Binary64}
    {subject : α → String} {limit : Nat} (hnum : ∀ x ∈ xs, Numbers limit (channel x))
    (h : checkUniqueChannels what (xs.map fun x => (channel x, subject x)) = .ok ()) :
    xs.Pairwise fun x y => (channel x).toWhole ≠ (channel y).toWhole :=
  (List.pairwise_map.1 (pairwise_of_checkUnique h).1).imp_of_mem fun hx hy hne =>
    ne_of_sameKey (hnum _ hx) (hnum _ hy) hne

theorem ne_of_holds {α : Type} {xs : List α} {channel : α → Binary64} {c : Binary64} {a b : Nat} {x : α}
    (hc : Numbers a c) (hnum : ∀ x ∈ xs, Numbers b (channel x)) (h : holds (xs.map channel) c ≠ true) (hx : x ∈ xs) :
    c.toWhole ≠ (channel x).toWhole := fun heq =>
  h (List.any_eq_true.2 ⟨_, List.mem_map.2 ⟨x, hx, rfl⟩,
    Binary64.sameKey_of_toWhole_eq (hnum x hx).whole hc.whole heq.symm⟩)

/-- Every line exists and serves one purpose. -/
structure Checked (h : Hardware) : Prop where
  unit : 0 < h.delayUnit
  output : ∀ o ∈ h.outputs, Numbers outputLimit o.channel
  counter : ∀ c ∈ h.counters, Numbers counterLimit c.channel
  gate : ∀ c ∈ h.counters, Numbers outputLimit c.gate
  register : ∀ b ∈ h.register, Numbers outputLimit b.output
  outputs : h.outputs.Pairwise fun x y => x.channel.toWhole ≠ y.channel.toWhole
  gates : h.counters.Pairwise fun x y => x.gate.toWhole ≠ y.gate.toWhole
  output_gate : ∀ o ∈ h.outputs, ∀ c ∈ h.counters, o.channel.toWhole ≠ c.gate.toWhole
  output_register : ∀ o ∈ h.outputs, ∀ b ∈ h.register, o.channel.toWhole ≠ b.output.toWhole
  gate_register : ∀ c ∈ h.counters, ∀ b ∈ h.register, c.gate.toWhole ≠ b.output.toWhole

theorem checked_of_check {h : Hardware} (hc : h.check = .ok ()) : h.Checked := by
  have hlimit : outputLimit ≤ Binary64.significandLimit := by decide
  unfold check at hc
  simp only at hc
  split at hc
  · cases hc
  rename_i hpos
  obtain ⟨⟨⟩, hranges, hc⟩ := Except.bind_eq_ok.1 hc
  obtain ⟨⟨⟩, hdup, hc⟩ := Except.bind_eq_ok.1 hc
  obtain ⟨⟨⟩, hreg, hshare⟩ := Except.bind_eq_ok.1 hc
  obtain ⟨⟨⟩, hout, hranges⟩ := Except.bind_eq_ok.1 hranges
  obtain ⟨⟨⟩, -, hcount⟩ := Except.bind_eq_ok.1 hranges
  have houtput : ∀ o ∈ h.outputs, Numbers outputLimit o.channel := fun o ho =>
    numbers_of_checkRange hlimit (Except.forM_eq_ok.1 hout o ho)
  have hcounter : ∀ c ∈ h.counters, Numbers counterLimit c.channel ∧ Numbers outputLimit c.gate := fun c hc => by
    obtain ⟨⟨⟩, hchannel, hrange⟩ := Except.bind_eq_ok.1 (Except.forM_eq_ok.1 hcount c hc)
    exact ⟨numbers_of_checkRange (by decide) hchannel, numbers_of_checkRange hlimit hrange⟩
  have hgate : ∀ c ∈ h.counters, Numbers outputLimit c.gate := fun c hc => (hcounter c hc).2
  obtain ⟨⟨⟩, hduout, hdup⟩ := Except.bind_eq_ok.1 hdup
  obtain ⟨⟨⟩, -, hdup⟩ := Except.bind_eq_ok.1 hdup
  obtain ⟨⟨⟩, -, hdup⟩ := Except.bind_eq_ok.1 hdup
  obtain ⟨⟨⟩, hdugate, -⟩ := Except.bind_eq_ok.1 hdup
  obtain ⟨⟨⟩, -, hreg⟩ := Except.bind_eq_ok.1 hreg
  obtain ⟨⟨⟩, -, hreg⟩ := Except.bind_eq_ok.1 hreg
  obtain ⟨⟨⟩, -, hreg⟩ := Except.bind_eq_ok.1 hreg
  obtain ⟨⟨⟩, -, hreg⟩ := Except.bind_eq_ok.1 hreg
  have hregister : ∀ b ∈ h.register, Numbers outputLimit b.output := fun b hb => by
    obtain ⟨⟨⟩, hrange, -⟩ := Except.bind_eq_ok.1 (Except.forM_eq_ok.1 hreg b hb)
    exact numbers_of_checkRange hlimit hrange
  obtain ⟨⟨⟩, hshout, hshare⟩ := Except.bind_eq_ok.1 hshare
  obtain ⟨⟨⟩, hshcount, -⟩ := Except.bind_eq_ok.1 hshare
  have hshout' : ∀ o ∈ h.outputs, holds (h.register.map RegisterBit.output) o.channel ≠ true ∧
      holds (h.counters.map PulseCounter.gate) o.channel ≠ true := fun o ho => by
    have := Except.forM_eq_ok.1 hshout o ho
    by_cases h1 : holds (h.register.map RegisterBit.output) o.channel = true
    · simp [h1, bind, Except.bind] at this
    · by_cases h2 : holds (h.counters.map PulseCounter.gate) o.channel = true
      · simp [h1, h2] at this
      · exact ⟨h1, h2⟩
  have hshcount' : ∀ c ∈ h.counters, holds (h.register.map RegisterBit.output) c.gate ≠ true := fun c hc h1 => by
    have := Except.forM_eq_ok.1 hshcount c hc
    simp [h1] at this
  exact {
    unit := by simpa using hpos, output := houtput, counter := fun c hc => (hcounter c hc).1, gate := hgate
    register := hregister
    outputs := pairwise_of_checkUniqueChannels houtput hduout
    gates := pairwise_of_checkUniqueChannels hgate hdugate
    output_gate := fun o ho c hc => ne_of_holds (houtput o ho) hgate (hshout' o ho).2 hc
    output_register := fun o ho b hb => ne_of_holds (houtput o ho) hregister (hshout' o ho).1 hb
    gate_register := fun c hc b hb => ne_of_holds (hgate c hc) hregister (hshcount' c hc) hb }

/-! ## Masks -/

theorem bit_maskOf (channels : List Binary64) (i : Nat) :
    Bits.bit (maskOf channels) i = channels.any fun c => decide (i = Bits.position c.toWhole) := by
  rw [maskOf, Bits.bit_foldl_or_single, Bits.bit_zero, Bool.false_or]

theorem position_lt_of_numbers {channel : Binary64} (h : Numbers outputLimit channel) :
    Bits.position channel.toWhole < outputLimit := by
  have hlimit : outputLimit = 24 := rfl
  have := h.lt
  rw [Bits.position_of_lt h.nonneg (by omega)]
  omega

theorem bit_polarityMask_of_le {h : Hardware} (hc : h.Checked) {i : Nat} (hi : outputLimit ≤ i) :
    Bits.bit h.polarityMask i = false := by
  rw [polarityMask, bit_maskOf, List.any_eq_false]
  intro c hmem
  obtain ⟨o, ho, rfl⟩ := List.mem_map.1 hmem
  have := position_lt_of_numbers (hc.output o (List.mem_filter.1 ho).1)
  simp only [decide_eq_true_eq]
  omega

end Hardware

theorem Register.bit_complement (r : Register) (i : Nat) :
    Bits.bit r.complement i = (decide (i < Hardware.outputLimit) && !Bits.bit r.mask i) := by
  rw [complement, Bits.bit_without]
  congr 1
  by_cases hi : i < 32
  · interval_cases i <;> rfl
  · have : ¬ i < Hardware.outputLimit := by unfold Hardware.outputLimit; omega
    rw [Bits.bit_of_le (Nat.not_lt.1 hi), decide_eq_false this]

/-! ## Lines of channels -/

namespace Pulse

/-- A line of the bus outside the control register. -/
structure OnLine (h : Hardware) (line : Int) : Prop where
  nonneg : 0 ≤ line
  lt : line < Hardware.outputLimit
  outside : Bits.bit (Register.mask h.register) (Bits.position line) = false

theorem OnLine.position {h : Hardware} {line : Int} (hl : OnLine h line) : Bits.position line = line.toNat := by
  have hlimit : Hardware.outputLimit = 24 := rfl
  have := hl.lt
  exact Bits.position_of_lt hl.nonneg (by omega)

theorem OnLine.bit_complement {h : Hardware} {line : Int} (hl : OnLine h line) :
    Bits.bit (Register.complement h.register) (Bits.position line) = true := by
  have := hl.lt
  have hlt : line.toNat < Hardware.outputLimit := by have := hl.nonneg; omega
  rw [Register.bit_complement, hl.outside, hl.position]
  simpa using hlt

theorem mem_of_pulseCounter {h : Hardware} {name : String} {p : PulseCounter}
    (hp : Sequence.pulseCounter h name = .ok p) : p ∈ h.counters ∧ p.name = name := by
  unfold Sequence.pulseCounter at hp
  split at hp
  · rename_i hfind
    cases hp
    have hname := List.find?_some hfind
    exact ⟨List.mem_of_find?_eq_some hfind, by simpa using hname⟩
  · cases hp

/-- The line of a channel is that of an output or of a gate. -/
theorem lineOf_eq_ok {h : Hardware} {c : Channel} {line : Int} (hl : lineOf h c = .ok (some line)) :
    (∃ o ∈ h.outputs, o.name = c.name ∧ line = o.channel.toWhole) ∨
      ∃ p ∈ h.counters, p.name = c.name ∧ line = p.gate.toWhole := by
  unfold lineOf at hl
  split at hl
  · cases hl
  · obtain ⟨o, ho, hline⟩ := Except.bind_eq_ok.1 hl
    cases hline
    unfold Sequence.outputLine at ho
    split at ho
    · rename_i hfind
      cases ho
      have hname := List.find?_some hfind
      exact .inl ⟨o, List.mem_of_find?_eq_some hfind, by simpa using hname, rfl⟩
    · cases ho
  · obtain ⟨p, hp, hline⟩ := Except.bind_eq_ok.1 hl
    cases hline
    obtain ⟨hmem, hname⟩ := mem_of_pulseCounter hp
    exact .inr ⟨p, hmem, hname, rfl⟩

theorem onLine_of_ne {h : Hardware} {channel : Binary64} (hc : h.Checked)
    (hnum : Hardware.Numbers Hardware.outputLimit channel)
    (hne : ∀ b ∈ h.register, channel.toWhole ≠ b.output.toWhole) : OnLine h channel.toWhole := by
  refine ⟨hnum.nonneg, hnum.lt, ?_⟩
  rw [Register.mask, Hardware.bit_maskOf, List.any_eq_false]
  intro x hx
  obtain ⟨b, hb, rfl⟩ := List.mem_map.1 hx
  have hb' := hc.register b hb
  have hlimit : Hardware.outputLimit = 24 := rfl
  have h1 := hnum.lt
  have h2 := hb'.lt
  have h3 := hnum.nonneg
  have h4 := hb'.nonneg
  rw [decide_eq_true_eq, Bits.position_of_lt hnum.nonneg (by omega), Bits.position_of_lt hb'.nonneg (by omega)]
  have := hne b hb
  omega

theorem onLine_of_lineOf {h : Hardware} {c : Channel} {line : Int} (hc : h.Checked)
    (hl : lineOf h c = .ok (some line)) : OnLine h line := by
  rcases lineOf_eq_ok hl with ⟨o, ho, -, rfl⟩ | ⟨p, hp, -, rfl⟩
  · exact onLine_of_ne hc (hc.output o ho) (hc.output_register o ho)
  · exact onLine_of_ne hc (hc.gate p hp) (hc.gate_register p hp)

theorem lineOf_ne {h : Hardware} {c c' : Channel} {line line' : Int} (hc : h.Checked) (hne : c.name ≠ c'.name)
    (hl : lineOf h c = .ok (some line)) (hl' : lineOf h c' = .ok (some line')) : line ≠ line' := by
  rcases lineOf_eq_ok hl with ⟨o, ho, hname, rfl⟩ | ⟨p, hp, hname, rfl⟩ <;>
    rcases lineOf_eq_ok hl' with ⟨o', ho', hname', rfl⟩ | ⟨p', hp', hname', rfl⟩
  · have : Std.Symm fun x y : OutputLine => x.channel.toWhole ≠ y.channel.toWhole := ⟨fun _ _ h => h.symm⟩
    refine hc.outputs.forall ho ho' ?_
    rintro rfl
    exact hne (hname.symm.trans hname')
  · exact hc.output_gate o ho p' hp'
  · exact (hc.output_gate o' ho' p hp).symm
  · have : Std.Symm fun x y : PulseCounter => x.gate.toWhole ≠ y.gate.toWhole := ⟨fun _ _ h => h.symm⟩
    refine hc.gates.forall hp hp' ?_
    rintro rfl
    exact hne (hname.symm.trans hname')

end Pulse

end PulseSequencer
