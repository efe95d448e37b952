import PulseSequencer.Proofs.Attempt
import PulseSequencer.Proofs.Links
import PulseSequencer.Proofs.Union

/-!
# What SETs inherit

* `Board.bit_mask_inheritDrive`, `Board.bit_value_inheritDrive` : the bits of a drive after it has inherited;
* `Draft.inheritOutputs_eq_ok`, `Draft.exists_inheritOutputs` : the draft after a successful pass, and when it succeeds;
* `Draft.chain_of_inheritOutputs` : each SET inherits from the one before it;
* `Draft.inheritOutputs_induction` : so what passes from each SET to the next one holds of all.
-/

namespace PulseSequencer

namespace Board

@[simp] theorem bit_mask_inheritDrive (d e : Drive) (m : Int) (i : Nat) :
    Bits.bit (inheritDrive d e m).mask i = (Bits.bit d.mask i || (Bits.bit m i && Bits.bit e.mask i)) := by
  simp only [inheritDrive, Bits.bit_or, Bits.bit_and, Bits.bit_without]
  cases Bits.bit d.mask i <;> simp

theorem bit_value_inheritDrive (d e : Drive) (m : Int) (i : Nat) :
    Bits.bit (inheritDrive d e m).value i = (Bits.bit d.value i ||
      (Bits.bit e.value i && (Bits.bit m i && !Bits.bit d.mask i && Bits.bit e.mask i))) := by
  simp [inheritDrive]

theorem inside_inheritDrive {d e : Drive} (hd : d.Inside) (m : Int) : (inheritDrive d e m).Inside := by
  intro i
  rw [bit_value_inheritDrive, bit_mask_inheritDrive]
  simp only [Bool.or_eq_true, Bool.and_eq_true]
  rintro (h | ⟨-, ⟨hm, -⟩, he⟩)
  · exact .inl (hd i h)
  · exact .inr ⟨hm, he⟩

end Board

namespace Draft

/-- Only the drives of the SETs change, and each takes its open bits from the final drive of the SET before it. -/
theorem inheritFrom_chain {mask : Int} {ls : List Label} :
    ∀ {p : Label} {b : Board}, (p :: ls).Nodup → (∀ l ∈ ls, l < b.size ∧ (b.get l).isSet = true) →
      b.Redriven (inheritFrom mask p b ls) ∧ (∀ m, m ∉ ls → (inheritFrom mask p b ls).get m = b.get m) ∧
        List.IsChain (fun x l => ((inheritFrom mask p b ls).get l).drive =
          Board.inheritDrive (b.get l).drive ((inheritFrom mask p b ls).get x).drive mask) (p :: ls) := by
  induction ls with
  | nil => exact fun _ _ => ⟨.refl _, fun _ _ => rfl, .singleton _⟩
  | cons l ls ih =>
    intro p b hnodup hls
    obtain ⟨hlt, hset⟩ := hls l List.mem_cons_self
    obtain ⟨hp, hnodup'⟩ := List.nodup_cons.1 hnodup
    have hl : l ∉ ls := (List.nodup_cons.1 hnodup').1
    -- after the first step only the drive of `l` has changed
    have hget : (b.inherit l p mask).get l =
        (b.get l).withDrive (Board.inheritDrive (b.get l).drive (b.get p).drive mask) := Board.get_modify_self _ hlt
    have hother : ∀ m, m ≠ l → (b.inherit l p mask).get m = b.get m := fun m hm => Board.get_modify_of_ne _ hm
    obtain ⟨hred, hframe, hchain⟩ := ih (p := l) (b := b.inherit l p mask) hnodup' fun m hm => by
      have hml : m ≠ l := fun h => hl (h ▸ hm)
      rw [hother m hml, Board.inherit, Board.size_modify]
      exact hls m (List.mem_cons_of_mem _ hm)
    have hl' : (inheritFrom mask p b (l :: ls)).get l =
        (b.get l).withDrive (Board.inheritDrive (b.get l).drive (b.get p).drive mask) := (hframe l hl).trans hget
    have hframe' : ∀ m, m ∉ l :: ls → (inheritFrom mask p b (l :: ls)).get m = b.get m := fun m hm => by
      rw [List.mem_cons, not_or] at hm
      exact (hframe m hm.2).trans (hother m hm.1)
    refine ⟨⟨hred.size_eq.trans (Board.size_modify _ _ _), fun m => ?_⟩, hframe', List.isChain_cons_cons.2 ⟨?_, ?_⟩⟩
    · by_cases hml : m = l
      · subst hml
        exact .inr ⟨hset, _, hl'⟩
      · have := hred.get m
        rwa [hother m hml] at this
    · rw [hl', hframe' p hp, Instruction.drive_withDrive]
    · refine hchain.imp_of_mem_tail_imp fun x m _ hm h => ?_
      rw [List.tail_cons] at hm
      rwa [hother m fun hml => hl (hml ▸ hm)] at h

/-- A pass sorts the draft. The first SET must be at tick 0, the others inherit in order. -/
theorem inheritOutputs_eq_ok {d d' : Draft} {mask : Int} (h : d.inheritOutputs mask = .ok d') :
    d'.list = sorted d.board d.list ∧
      ((d.sort.sets = [] ∧ d'.board = d.board) ∨
        ∃ first rest, d.sort.sets = first :: rest ∧ d.board.time first = 0 ∧
          d'.board = inheritFrom mask first d.board rest) := by
  unfold inheritOutputs at h
  simp only at h
  split at h
  · rename_i hnil
    cases h
    exact ⟨rfl, .inl ⟨hnil, rfl⟩⟩
  · rename_i first rest hcons
    split at h
    · cases h
    · rename_i htime
      cases h
      exact ⟨rfl, .inr ⟨first, rest, hcons, not_not.1 htime, rfl⟩⟩

/-- After a pass every SET but the first has taken its open bits from the SET before it. -/
theorem chain_of_inheritOutputs {d d' : Draft} {mask : Int} (hnodup : d.sets.Nodup)
    (h : d.inheritOutputs mask = .ok d') :
    d.board.Redriven d'.board ∧ (∀ l, l ∉ d.sets → d'.board.get l = d.board.get l) ∧
      (∀ l ∈ d.sort.sets.head?, d.board.time l = 0 ∧ d'.board.get l = d.board.get l) ∧
      List.IsChain (fun x l => (d'.board.get l).drive =
        Board.inheritDrive (d.board.get l).drive (d'.board.get x).drive mask) d.sort.sets := by
  have hperm : d.sort.sets.Perm d.sets := (perm_sorted d.board d.list).filter _
  rcases (inheritOutputs_eq_ok h).2 with ⟨hnil, hboard⟩ | ⟨first, rest, hcons, hzero, hboard⟩
  · rw [hnil, hboard]
    refine ⟨.refl _, fun _ _ => rfl, fun l hl => ?_, .nil⟩
    cases hl
  · rw [hcons] at hperm ⊢
    have hnodup' : (first :: rest).Nodup := hperm.nodup_iff.2 hnodup
    have hsets : ∀ l ∈ rest, l < d.board.size ∧ (d.board.get l).isSet = true := fun l hl => by
      have hset := (mem_sets.1 (hperm.mem_iff.1 (List.mem_cons_of_mem _ hl))).2
      exact ⟨Board.lt_size_of_isSet hset, hset⟩
    obtain ⟨hred, hframe, hchain⟩ := @inheritFrom_chain mask rest first d.board hnodup' hsets
    rw [← hboard] at hred hframe hchain
    refine ⟨hred, fun l hl => hframe l fun hrest => hl (hperm.mem_iff.1 (List.mem_cons_of_mem _ hrest)), ?_, hchain⟩
    rintro l ⟨⟩
    exact ⟨hzero, hframe first (List.nodup_cons.1 hnodup').1⟩

/-- What holds of the first SET's drive, and passes from each SET to the next one as that inherits, holds of all. -/
theorem inheritOutputs_induction {d d' : Draft} {mask : Int} {R : Label → Drive → Prop} (hnodup : d.sets.Nodup)
    (h : d.inheritOutputs mask = .ok d') (hstart : ∀ l ∈ d.sort.sets.head?, R l (d.board.get l).drive)
    (hpass : d.sort.sets.IsChain fun x l => ∀ e, R x e → R l (Board.inheritDrive (d.board.get l).drive e mask)) :
    ∀ l ∈ d.sort.sets, R l (d'.board.get l).drive := by
  obtain ⟨-, -, hfirst, hchain⟩ := chain_of_inheritOutputs hnodup h
  have hpasses : d.sort.sets.IsChain fun x l => R x (d'.board.get x).drive → R l (d'.board.get l).drive := by
    refine List.isChain_iff_getElem.2 fun i hi hx => ?_
    rw [hchain.getElem i hi]
    exact hpass.getElem i hi _ hx
  refine hpasses.induction (fun l => R l (d'.board.get l).drive) d.sort.sets (fun _ _ h => h) fun hne => ?_
  have hhead := List.head?_eq_some_head hne
  rw [(hfirst _ hhead).2]
  exact hstart _ hhead

/-- A pass succeeds if no SET is before one at tick 0. -/
theorem exists_inheritOutputs {d : Draft} {mask : Int} (hnonneg : ∀ l ∈ d.sets, 0 ≤ d.board.time l)
    (hstart : ∃ l ∈ d.sets, d.board.time l = 0) : ∃ d', d.inheritOutputs mask = .ok d' := by
  have hmem : ∀ l, l ∈ d.sort.sets ↔ l ∈ d.sets := fun l => by
    rw [mem_sets, mem_sets, board_sort, list_sort, mem_sorted]
  have hpair : d.sort.sets.Pairwise fun x y => d.board.time x ≤ d.board.time y :=
    (pairwise_time_sorted d.board d.list).filter _
  obtain ⟨l, hl, hzero⟩ := hstart
  have hl' := (hmem l).2 hl
  unfold inheritOutputs
  simp only [board_sort]
  cases hsets : d.sort.sets with
  | nil =>
    rw [hsets] at hl'
    cases hl'
  | cons first rest =>
    rw [hsets] at hl' hpair
    have hfirst : d.board.time first = 0 := by
      have := hnonneg first ((hmem first).1 (hsets ▸ List.mem_cons_self))
      rcases List.mem_cons.1 hl' with rfl | hl'
      · exact hzero
      · have := (List.pairwise_cons.1 hpair).1 l hl'
        omega
    simp only [hfirst, ne_eq, not_true_eq_false, if_false]
    exact ⟨_, rfl⟩

/-- What every drive has, and keeps when it inherits, holds of the drives afterwards. -/
theorem drives_of_inheritOutputs {d d' : Draft} {mask : Int} {R : Label → Drive → Prop} (hd : d.Linked)
    (hR : ∀ l ∈ d.sets, R l (d.board.get l).drive)
    (hkeep : ∀ l ∈ d.sets, ∀ e e', R l e → R l (Board.inheritDrive e e' mask)) (h : d.inheritOutputs mask = .ok d') :
    d'.list = sorted d.board d.list ∧ d.board.Redriven d'.board ∧ ∀ l ∈ d'.sets, R l (d'.board.get l).drive := by
  have hnodup : d.sets.Nodup := hd.nodup.filter _
  have hmem : ∀ l, l ∈ d.sort.sets ↔ l ∈ d.sets := fun l => by
    rw [mem_sets, mem_sets, board_sort, list_sort, mem_sorted]
  obtain ⟨hlist, -⟩ := inheritOutputs_eq_ok h
  obtain ⟨hred, -⟩ := chain_of_inheritOutputs hnodup h
  have hall := @inheritOutputs_induction d d' mask R hnodup h
    (fun l hl => hR l ((hmem l).1 (List.mem_of_head? hl)))
    (List.isChain_iff_getElem.2 fun i hi e _ => by
      have hl := (hmem _).1 (List.getElem_mem hi)
      exact hkeep _ hl _ e (hR _ hl))
  refine ⟨hlist, hred, fun l hl => hall l ?_⟩
  rwa [hmem, mem_sets, ← hred.sameLinks.isSet, ← mem_sorted (b := d.board), ← hlist, ← mem_sets]

end Draft

end PulseSequencer
