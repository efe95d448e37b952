import PulseSequencer.Proofs.Gaps
import PulseSequencer.Proofs.Number
import PulseSequencer.Proofs.Word

/-!
# From a timed list to words

Polarity, addresses and encoding, taken together: instruction `i` of the list becomes word `i`, and reads back as the
operation that the instruction stands for.

* `Draft.Scheduled` : a list on ticks of its own whose jumps stay inside it;
* `Draft.linked` : the operation of an instruction at its final address;
* `Draft.Scheduled.exists_addressed`, `Draft.Addressed.encode_eq_ok` : addressing succeeds, and when encoding does.
-/

namespace PulseSequencer

/-- The instruction on lines with the given polarity. -/
def Instruction.polarize (polarity : Int) (i : Instruction) : Instruction :=
  if i.isSet then i.withDrive { i.drive with polarity } else i

namespace Draft

/-- Instructions on ticks of their own, in order, with all jumps going to members of the list. -/
structure Scheduled (d : Draft) : Prop where
  valid : ∀ l ∈ d.list, l < d.board.size
  nonneg : ∀ l ∈ d.list, 0 ≤ d.board.time l
  increasing : d.list.Pairwise fun x y => d.board.time x < d.board.time y
  closed : ∀ l ∈ d.list, ∀ g, (d.board.get l).target? = some g → g ∈ d.list

theorem Scheduled.nodup {d : Draft} (h : d.Scheduled) : d.list.Nodup :=
  h.increasing.imp fun hlt heq => absurd (heq ▸ hlt) (lt_irrefl _)

/-- A list with its gaps filled is scheduled. -/
theorem Covers.scheduled {d f : Draft} (hcov : Covers f.board (-1) none d.list f.list) (hext : d.board.Extends f.board)
    (hvalid : ∀ l ∈ d.list, l < d.board.size)
    (hclosed : ∀ l ∈ d.list, ∀ g, (d.board.get l).target? = some g → g ∈ d.list) : f.Scheduled := by
  refine ⟨?_, fun l hl => ?_, hcov.increasing, fun l hl g hg => ?_⟩
  · exact hcov.lt_size fun l hl => lt_of_lt_of_le (hvalid l hl) hext.size_le
  · have := hcov.lt_time l hl
    omega
  · rcases hcov.mem_or_target? l hl with hl | hnone
    · rw [hext.get_eq l (hvalid l hl)] at hg
      exact hcov.subset g (hclosed l hl g hg)
    · rw [hnone] at hg
      cases hg

/-! ## Polarity -/

theorem get_applyPolarity {d : Draft} {l : Label} (polarity : Int) (hl : l ∈ d.list) :
    (d.applyPolarity polarity).board.get l = (d.board.get l).polarize polarity := by
  have hget := @Board.get_foldl_modify (fun i => i.withDrive { i.drive with polarity }) d.sets (.inr fun _ => rfl)
    d.board l
  rw [applyPolarity, hget, Instruction.polarize]
  by_cases h : (d.board.get l).isSet = true
  · rw [if_pos ⟨mem_sets.2 ⟨hl, h⟩, Board.lt_size_of_isSet h⟩, if_pos h]
  · rw [if_neg fun h' => h (mem_sets.1 h'.1).2, if_neg h]

theorem size_applyPolarity (d : Draft) (polarity : Int) : (d.applyPolarity polarity).board.size = d.board.size := by
  rw [applyPolarity]
  exact Board.size_foldl_modify _ _ _

@[simp] theorem list_applyPolarity (d : Draft) (polarity : Int) : (d.applyPolarity polarity).list = d.list := rfl

theorem time_polarize (polarity : Int) (i : Instruction) : (i.polarize polarity).time = i.time := by
  unfold Instruction.polarize
  split <;> rfl

/-! ## Addresses -/

theorem addressFrom_ok {ls : List Label} : ∀ {last : Int} {next : Nat} {b : Board},
    (∀ l ∈ ls, last < b.time l) → (ls.Pairwise fun x y => b.time x < b.time y) →
    ∃ b', addressFrom last next b ls = .ok b' ∧ b'.size = b.size ∧ (∀ l, l ∉ ls → b'.get l = b.get l) ∧
      ∀ l ∈ ls, l < b.size → b'.get l = { b.get l with address := some ((next + ls.idxOf l : Nat) : Int) } := by
  induction ls with
  | nil => exact fun _ _ => ⟨_, rfl, rfl, fun _ _ => rfl, fun _ h => by cases h⟩
  | cons x ls ih =>
    intro last next b hlast hinc
    obtain ⟨hx, hinc⟩ := List.pairwise_cons.1 hinc
    -- the address of `x` leaves all ticks as they are
    have htime : ∀ l, (b.modify x fun i => { i with address := some (next : Int) }).time l = b.time l := by
      intro l
      rw [Board.time, Board.get_modify]
      split <;> rfl
    have hne : x ∉ ls := fun h => lt_irrefl _ (hx x h)
    obtain ⟨b', hb', hsize, hout, hin⟩ := @ih (b.time x) (next + 1)
      (b.modify x fun i => { i with address := some (next : Int) })
      (fun l hl => by rw [htime]; exact hx l hl) (hinc.imp fun h => by rwa [htime, htime])
    refine ⟨b', ?_, by rw [hsize, Board.size_modify], fun l hl => ?_, fun l hl hlt => ?_⟩
    · unfold addressFrom
      rw [if_neg (not_le.2 (hlast x List.mem_cons_self)), hb']
    · rw [List.mem_cons, not_or] at hl
      rw [hout l hl.2, Board.get_modify_of_ne _ hl.1]
    · rcases List.mem_cons.1 hl with rfl | hl
      · rw [hout l hne, Board.get_modify_self _ hlt, List.idxOf_cons_self]
        rfl
      · have hlx : l ≠ x := fun h => hne (h ▸ hl)
        rw [hin l hl (by rwa [Board.size_modify]), Board.get_modify_of_ne _ hlx, List.idxOf_cons_ne _ hlx.symm,
          show next + 1 + ls.idxOf l = next + (ls.idxOf l).succ by omega]

/-- The draft `a` is `d` with polarity and addresses. -/
structure Addressed (d : Draft) (polarity : Int) (a : Draft) : Prop where
  list : a.list = d.list
  get : ∀ l ∈ d.list,
    a.board.get l = { (d.board.get l).polarize polarity with address := some ((d.list.idxOf l + 1 : Nat) : Int) }

theorem Scheduled.exists_addressed {d : Draft} (h : d.Scheduled) (polarity : Int) :
    ∃ a, (d.applyPolarity polarity).assignAddresses = .ok a ∧ d.Addressed polarity a := by
  have htime : ∀ l ∈ d.list, (d.applyPolarity polarity).board.time l = d.board.time l := fun l hl => by
    rw [Board.time, get_applyPolarity polarity hl, time_polarize]
    rfl
  have hinc : d.list.Pairwise fun x y =>
      (d.applyPolarity polarity).board.time x < (d.applyPolarity polarity).board.time y :=
    h.increasing.imp_of_mem fun hx hy hlt => by rwa [htime _ hx, htime _ hy]
  have hsort : (d.applyPolarity polarity).sort.list = d.list := sorted_of_increasing hinc
  obtain ⟨b', hb', -, -, hget⟩ := @addressFrom_ok d.list (-1) 1 _
    (fun l hl => by rw [htime l hl]; have := h.nonneg l hl; omega) hinc
  refine ⟨{ (d.applyPolarity polarity).sort with board := b' }, ?_, hsort, fun l hl => ?_⟩
  · rw [← hsort] at hb'
    exact Except.bind_eq_ok.2 ⟨b', hb', rfl⟩
  · rw [hget l hl (by rw [size_applyPolarity]; exact h.valid l hl), get_applyPolarity polarity hl, Nat.add_comm]

/-! ## Words -/

/-- The operation of an instruction, its jump going to the place of its target in the list. -/
def linked (d : Draft) (polarity : Int) (l : Label) : Operation :=
  match (d.board.get l).action with
  | .wait duration => .wait duration.toWhole.toNat
  | .jump always channel threshold g => .jump always channel.toWhole.toNat threshold.toWhole.toNat (d.list.idxOf g + 1)
  | .set drive => .set (Bits.unsigned (Bits.xor drive.value polarity))
  | .stop => .stop

/-- The instruction whose encoding stops a list. -/
theorem exists_of_encode_error {d : Draft} {f : Fault} (h : d.encode = .error f) :
    ∃ l ∈ d.list, d.board.operation l = .error f := by
  obtain ⟨l, hl, hf⟩ := Except.exists_of_mapM_eq_error h
  refine ⟨l, hl, ?_⟩
  unfold Board.encode at hf
  cases hop : d.board.operation l with
  | ok op =>
    rw [hop] at hf
    cases hf
  | error e =>
    rw [hop] at hf
    exact congrArg Except.error (Except.error.inj hf)

/-- The fields of an instruction fit, and the target of a jump knows of it. -/
def Encodable (d : Draft) (polarity : Int) (l : Label) : Prop :=
  match (d.board.get l).action with
  | .wait duration =>
    (duration.isWhole && decide (1 ≤ duration) && decide (duration < .ofNat Word.durationLimit)) = true
  | .jump _ channel threshold g =>
    l ∈ (d.board.get g).reachedBy ∧ ¬ (channel < 0 ∨ .ofNat (Word.channelLimit - 1) < channel) ∧
      ¬ (threshold < 0 ∨ .ofNat (Word.thresholdLimit - 1) < threshold) ∧ d.list.idxOf g + 1 < Word.addressLimit
  | .set drive => Bits.unsigned (Bits.xor drive.value polarity) < Word.busLimit
  | .stop => True

theorem action_polarize_of_not_isSet {polarity : Int} {i : Instruction} (h : i.isSet = false) :
    (i.polarize polarity).action = i.action := by
  rw [Instruction.polarize, if_neg (by rw [h]; exact Bool.false_ne_true)]

theorem reachedBy_polarize (polarity : Int) (i : Instruction) : (i.polarize polarity).reachedBy = i.reachedBy := by
  unfold Instruction.polarize
  split <;> rfl

namespace Addressed

variable {d a : Draft} {polarity : Int} {l : Label}

theorem action_of_not_isSet (ha : d.Addressed polarity a) (hl : l ∈ d.list) (h : (d.board.get l).isSet = false) :
    (a.board.get l).action = (d.board.get l).action := by
  rw [ha.get l hl]
  exact action_polarize_of_not_isSet h

theorem operation_eq_ok (ha : d.Addressed polarity a) (hl : l ∈ d.list)
    (hclosed : ∀ g, (d.board.get l).target? = some g → g ∈ d.list) {op : Operation} :
    a.board.operation l = .ok op ↔ d.Encodable polarity l ∧ op = d.linked polarity l := by
  cases hact : (d.board.get l).action with
  | wait duration =>
    have hact' : (a.board.get l).action = .wait duration := by
      rw [ha.action_of_not_isSet hl (by rw [Instruction.isSet, hact]), hact]
    simp only [Board.operation, hact', Encodable, linked, hact]
    split
    · rename_i h
      simp [h, eq_comm]
    · rename_i h
      simp [h]
  | stop =>
    have hact' : (a.board.get l).action = .stop := by
      rw [ha.action_of_not_isSet hl (by rw [Instruction.isSet, hact]), hact]
    simp [Board.operation, hact', Encodable, linked, hact, eq_comm]
  | set drive =>
    have hact' : (a.board.get l).action = .set { drive with polarity } := by
      rw [ha.get l hl]
      simp [Instruction.polarize, Instruction.isSet, hact, Instruction.withDrive, Instruction.drive]
    simp only [Board.operation, hact', Encodable, linked, hact, Board.physical]
    by_cases h : Bits.unsigned (Bits.xor drive.value polarity) < Word.busLimit
    · simp [h, eq_comm]
    · simp [h]
  | jump always channel threshold g =>
    have hact' : (a.board.get l).action = .jump always channel threshold g := by
      rw [ha.action_of_not_isSet hl (by rw [Instruction.isSet, hact]), hact]
    have hg : g ∈ d.list := hclosed g (by rw [Instruction.target?, hact])
    have hreach : (a.board.get g).reachedBy = (d.board.get g).reachedBy := by
      rw [ha.get g hg]
      exact reachedBy_polarize polarity _
    have haddr : (a.board.get g).address = some ((d.list.idxOf g + 1 : Nat) : Int) := by rw [ha.get g hg]
    have hrange : ((d.list.idxOf g + 1 : Nat) : Int) < 1 ∨
        ((Word.addressLimit - 1 : Nat) : Int) < ((d.list.idxOf g + 1 : Nat) : Int) ↔
        ¬ d.list.idxOf g + 1 < Word.addressLimit := by
      unfold Word.addressLimit
      omega
    simp only [Board.operation, hact', Encodable, linked, hact, hreach, haddr, hrange, Int.toNat_natCast]
    by_cases h1 : l ∈ (d.board.get g).reachedBy
    · simp only [h1, List.contains_eq_mem, decide_true, Bool.not_true, Bool.false_eq_true, if_false, true_and]
      split_ifs <;> simp_all [eq_comm]
    · simp [h1]

/-- Encoding succeeds exactly when every instruction fits, and gives the word of each. -/
theorem encode_eq_ok (ha : d.Addressed polarity a) (hd : d.Scheduled) {words : List Word} :
    a.encode = .ok words ↔
      (∀ l ∈ d.list, d.Encodable polarity l) ∧ words = d.list.map fun l => (d.linked polarity l).toWord := by
  have hop : ∀ l ∈ d.list, ∀ w, a.board.encode l = .ok w ↔
      d.Encodable polarity l ∧ w = (d.linked polarity l).toWord := by
    intro l hl w
    rw [Board.encode, Except.map_eq_ok]
    simp only [ha.operation_eq_ok hl (hd.closed l hl)]
    constructor
    · rintro ⟨op, ⟨h, rfl⟩, rfl⟩
      exact ⟨h, rfl⟩
    · rintro ⟨h, rfl⟩
      exact ⟨_, ⟨h, rfl⟩, rfl⟩
  rw [encode, ha.list]
  exact Except.mapM_eq_ok_map hop

end Addressed

/-- What is encoded fits the word format. -/
theorem Encodable.fits {d : Draft} {polarity : Int} {l : Label} (h : d.Encodable polarity l) :
    (d.linked polarity l).Fits := by
  unfold Encodable at h
  unfold linked
  split at h
  · simp only [Bool.and_eq_true, decide_eq_true_eq] at h
    obtain ⟨⟨hw, h1⟩, h2⟩ := h
    rw [Binary64.ofNat_eq (by decide), ← Int.cast_natCast, Binary64.lt_finite_iff hw] at h2
    change Int.toNat _ < Word.durationLimit
    have : 0 < Word.durationLimit := by decide
    omega
  · obtain ⟨-, hc, ht, ha⟩ := h
    rw [not_or] at hc ht
    have hc' := Binary64.toWhole_mem (by decide) hc.1 hc.2
    have ht' := Binary64.toWhole_mem (by decide) ht.1 ht.2
    unfold Word.channelLimit at hc'
    unfold Word.thresholdLimit at ht'
    refine ⟨?_, ?_, ha⟩
    · unfold Word.channelLimit
      omega
    · unfold Word.thresholdLimit
      omega
  · exact h
  · trivial

end Draft

end PulseSequencer
