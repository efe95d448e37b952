import PulseSequencer.Proofs.Lines
import PulseSequencer.Sequence.Check

/-!
# What a verified sequence is

* `Sequence.claimNames_eq_ok`, `Sequence.names_of_claimChannels` : names are used once;
* `Sequence.Verified`, `Sequence.verified_of_verify` : what verification ensures;
* `Sequence.Verified.checkTiming`, `Sequence.Verified.variant_ok` : every variant below the number of variants has been
  checked, and is compiled.
-/

namespace PulseSequencer.Sequence

theorem require_eq_ok {condition : Bool} {f : Fault} : require condition f = .ok () ↔ condition = true := by
  unfold require
  cases condition <;> simp

theorem claimNames_eq_ok {what title : String} {names : List String} : ∀ {used used' : List String},
    claimNames what title used names = .ok used' →
    used' = used ++ names ∧ names.Nodup ∧ ∀ n ∈ names, isReserved n = false ∧ n ∉ used := by
  induction names with
  | nil =>
    intro used used' h
    cases h
    simp
  | cons name names ih =>
    intro used used' h
    obtain ⟨⟨⟩, hreserved, h⟩ := Except.bind_eq_ok.1 h
    obtain ⟨⟨⟩, hused, h⟩ := Except.bind_eq_ok.1 h
    rw [require_eq_ok] at hreserved hused
    obtain ⟨rfl, hnodup, hall⟩ := ih h
    refine ⟨by simp, List.nodup_cons.2 ⟨fun hmem => ?_, hnodup⟩, fun n hn => ?_⟩
    · exact (hall name hmem).2 (by simp)
    · rcases List.mem_cons.1 hn with rfl | hn
      · exact ⟨by simpa using hreserved, by simpa using hused⟩
      · exact ⟨(hall n hn).1, fun hmem => (hall n hn).2 (List.mem_append_left _ hmem)⟩

/-- The names of channels and jumps are used once, and no jump has a reserved name. -/
theorem names_of_claimChannels {cs : List Channel} : ∀ {used used' : Names}, used.jumps.Nodup →
    cs.foldlM claimChannel used = .ok used' →
    (∀ c ∈ cs, c.name ∉ used.channels) ∧ (cs.Pairwise fun a b => a.name ≠ b.name) ∧
      (used.jumps ++ cs.flatMap fun c => c.jumps.map Jump.name).Nodup ∧
      ∀ c ∈ cs, ∀ j ∈ c.jumps, isReserved j.name = false := by
  induction cs with
  | nil => exact fun hnodup _ => ⟨by simp, .nil, by simpa using hnodup, by simp⟩
  | cons c cs ih =>
    intro used used' hnodup h
    obtain ⟨used₁, h1, h2⟩ := Except.foldlM_cons_eq_ok.1 h
    obtain ⟨⟨⟩, hname, h1⟩ := Except.bind_eq_ok.1 h1
    obtain ⟨windows, -, h1⟩ := Except.bind_eq_ok.1 h1
    obtain ⟨jumps, hjumps, h1⟩ := Except.bind_eq_ok.1 h1
    cases h1
    rw [require_eq_ok] at hname
    obtain ⟨rfl, hown, hfresh⟩ := claimNames_eq_ok hjumps
    have hnodup' : (used.jumps ++ c.jumps.map Jump.name).Nodup :=
      hnodup.append hown fun n hn hn' => (hfresh n hn').2 hn
    obtain ⟨hout, hpair, hall, hres⟩ := ih hnodup' h2
    refine ⟨fun c' hc' => ?_, List.pairwise_cons.2 ⟨fun c' hc' heq => ?_, hpair⟩, ?_, fun c' hc' j hj => ?_⟩
    · rcases List.mem_cons.1 hc' with rfl | hc'
      · simpa using hname
      · exact fun hmem => hout c' hc' (List.mem_cons_of_mem _ hmem)
    · exact hout c' hc' (heq ▸ List.mem_cons_self)
    · rw [List.flatMap_cons, ← List.append_assoc]
      exact hall
    · rcases List.mem_cons.1 hc' with rfl | hc'
      · exact (hfresh j.name (List.mem_map.2 ⟨j, hj, rfl⟩)).1
      · exact hres c' hc' j hj

/-- What verification ensures. -/
structure Verified (s : Sequence) : Prop where
  variants : isCount s.variants = true
  hardware : s.hardware.Checked
  channels : s.channels.Pairwise fun a b => a.name ≠ b.name
  jumpNames : (s.jumps.map fun e => e.1.name).Nodup
  unreserved : ∀ e ∈ s.jumps, isReserved e.1.name = false
  lines : ∀ c ∈ s.channels, s.checkChannel c = .ok ()
  jumps : ∀ e ∈ s.jumps, (s.checkJump e.1 e.2).outcome = .ok ()
  timing : ∀ v < s.variants.countBelow, s.checkTiming (.ofNat v) = .ok ()

theorem map_name_jumps (s : Sequence) :
    (s.jumps.map fun e => e.1.name) = s.channels.flatMap fun c => c.jumps.map Jump.name := by
  rw [jumps, List.map_flatMap]
  refine List.flatMap_congr fun c _ => ?_
  rw [List.map_map]
  rfl

theorem verified_of_verify {s : Sequence} (h : s.verify.outcome = .ok ()) : s.Verified := by
  obtain ⟨⟨⟩, hcounts, h⟩ := Attempt.bind_eq_ok.1 h
  obtain ⟨⟨⟩, hhard, h⟩ := Attempt.bind_eq_ok.1 h
  obtain ⟨⟨⟩, -, h⟩ := Attempt.bind_eq_ok.1 h
  obtain ⟨⟨⟩, hnames, h⟩ := Attempt.bind_eq_ok.1 h
  obtain ⟨⟨⟩, hlines, h⟩ := Attempt.bind_eq_ok.1 h
  obtain ⟨⟨⟩, htargets, htiming⟩ := Attempt.bind_eq_ok.1 h
  rw [Attempt.ofExcept_eq_ok] at hcounts hhard hnames hlines htiming
  obtain ⟨⟨⟩, -, hcounts⟩ := Except.bind_eq_ok.1 hcounts
  obtain ⟨⟨⟩, hvariants, -⟩ := Except.bind_eq_ok.1 hcounts
  obtain ⟨used, hfold, -⟩ := Except.bind_eq_ok.1 hnames
  obtain ⟨-, hchannels, hjumps, hres⟩ := names_of_claimChannels List.nodup_nil hfold
  refine {
    variants := require_eq_ok.1 hvariants
    hardware := Hardware.checked_of_check hhard, channels := hchannels
    jumpNames := by rw [map_name_jumps]; simpa using hjumps
    unreserved := fun e he => ?_
    lines := Except.forM_eq_ok.1 hlines
    jumps := Attempt.forM_eq_ok.1 htargets
    timing := fun v hv => Except.forM_eq_ok.1 htiming v (List.mem_range.2 hv) }
  obtain ⟨c, hc, he⟩ := List.mem_flatMap.1 he
  obtain ⟨j, hj, rfl⟩ := List.mem_map.1 he
  exact hres c hc j hj

/-- Every variant has been checked. -/
theorem Verified.checkTiming {s : Sequence} (h : s.Verified) {v : Nat} (hv : .ofNat v < s.variants) :
    s.checkTiming (.ofNat v) = .ok () := by
  have hwhole : s.variants.isWhole = true := (Bool.and_eq_true_iff.1 h.variants).1
  obtain ⟨n, hn, heq⟩ := Binary64.exists_lt_countBelow (Binary64.isFinite_of_isWhole hwhole) hv
  rw [heq]
  exact h.timing n hn

/-- The compiler takes every variant. -/
theorem Verified.variant_ok {s : Sequence} (h : s.Verified) {v : Nat} (hv : .ofNat v < s.variants) :
    (!(Binary64.ofNat v).isWhole || decide (Binary64.ofNat v < 0) || decide (s.variants ≤ .ofNat v)) = false := by
  have hwhole : s.variants.isWhole = true := (Bool.and_eq_true_iff.1 h.variants).1
  have hfinite := Binary64.isFinite_of_isWhole hwhole
  obtain hinf | ⟨m, hm, -⟩ := Binary64.exists_ofNat_eq v
  · rw [hinf] at hv
    cases hvariants : s.variants with
    | infinite _ =>
      rw [hvariants] at hwhole
      cases hwhole
    | _ =>
      rw [hvariants] at hv
      cases hv
  · rw [hm] at hv ⊢
    rw [Binary64.zero_eq, Bool.or_eq_false_iff, Bool.or_eq_false_iff, decide_eq_false_iff_not, decide_eq_false_iff_not,
      Binary64.finite_lt, not_lt, Binary64.le_iff_value hfinite rfl, not_le]
    refine ⟨⟨?_, Nat.cast_nonneg m⟩, (Binary64.lt_iff_value rfl hfinite).1 hv⟩
    simp [Binary64.isWhole]

/-- The compiler takes no other one. -/
theorem Verified.lt_variants {s : Sequence} (h : s.Verified) {variant : Binary64}
    (hv : (!variant.isWhole || decide (variant < 0) || decide (s.variants ≤ variant)) = false) :
    variant < s.variants := by
  have hfinite : s.variants.isFinite = true := Binary64.isFinite_of_isWhole (Bool.and_eq_true_iff.1 h.variants).1
  rw [Bool.or_eq_false_iff, Bool.or_eq_false_iff, Bool.not_eq_false', decide_eq_false_iff_not,
    decide_eq_false_iff_not] at hv
  obtain ⟨⟨hwhole, -⟩, hle⟩ := hv
  have hfinite' := Binary64.isFinite_of_isWhole hwhole
  rw [Binary64.le_iff_value hfinite hfinite', not_le] at hle
  exact (Binary64.lt_iff_value hfinite' hfinite).2 hle

end PulseSequencer.Sequence
