import PulseSequencer.Proofs.Assembly
import PulseSequencer.Proofs.Inherit
import PulseSequencer.Proofs.Merge
import PulseSequencer.Proofs.Placement

/-!
# Links through the passes

A jump and its target know each other, whatever is done to the list. A merge of SETs is what could break this: it puts a
new SET in the place of several, and has to send every jump to one of them there, once.

* `Board.Consistent` : the jumps of a list, their targets, and the masks of its SETs;
* `Board.Consistent.congr` : instructions may change otherwise;
* `Board.Consistent.of_unites`, `Board.Consistent.foldlM_uniteGroup` : one group of SETs united, and all of them;
* `Draft.Step` : what can be done to a draft, `Draft.consistent_of_step` : each step keeps it consistent;
* `Draft.links_of_steps` : so does every run, and its instructions are encoded with their links.
-/

namespace PulseSequencer

namespace Board

/-- The instructions of a list are distinct. A jump goes to one of them, which lists it once; no other one does. SETs
drive inside their masks. -/
structure Consistent (b : Board) (ls : List Label) : Prop where
  valid : ∀ l ∈ ls, l < b.size
  nodup : ls.Nodup
  target : ∀ l ∈ ls, ∀ g ∈ (b.get l).target?,
    g ∈ ls ∧ (b.get g).reachedBy.count l = 1 ∧ ∀ m ∈ ls, m ≠ g → l ∉ (b.get m).reachedBy
  inside : ∀ l ∈ ls, (b.get l).isSet = true → Bits.without (b.get l).drive.value (b.get l).drive.mask = 0

instance (b : Board) (ls : List Label) : Decidable (b.Consistent ls) :=
  decidable_of_iff ((∀ l ∈ ls, l < b.size) ∧ ls.Nodup ∧
    (∀ l ∈ ls, ∀ g ∈ (b.get l).target?,
      g ∈ ls ∧ (b.get g).reachedBy.count l = 1 ∧ ∀ m ∈ ls, m ≠ g → l ∉ (b.get m).reachedBy) ∧
    ∀ l ∈ ls, (b.get l).isSet = true → Bits.without (b.get l).drive.value (b.get l).drive.mask = 0)
    ⟨fun h => ⟨h.1, h.2.1, h.2.2.1, h.2.2.2⟩, fun h => ⟨h.valid, h.nodup, h.target, h.inside⟩⟩

namespace Consistent

variable {b b' : Board} {ls ls' : List Label}

theorem perm (h : b.Consistent ls) (hp : ls'.Perm ls) : b.Consistent ls' where
  valid l hl := h.valid l (hp.mem_iff.1 hl)
  nodup := hp.nodup_iff.2 h.nodup
  target l hl g hg := by
    obtain ⟨hmem, hone, hother⟩ := h.target l (hp.mem_iff.1 hl) g hg
    exact ⟨hp.mem_iff.2 hmem, hone, fun m hm => hother m (hp.mem_iff.1 hm)⟩
  inside l hl := h.inside l (hp.mem_iff.1 hl)

/-- Only the targets, the jumps of the list among those that reach an instruction, and the masks matter. -/
theorem congr (h : b.Consistent ls) (hsize : b.size ≤ b'.size)
    (htarget : ∀ l ∈ ls, (b'.get l).target? = (b.get l).target?)
    (hreached : ∀ m ∈ ls, ∀ l ∈ ls, (b'.get m).reachedBy.count l = (b.get m).reachedBy.count l)
    (hinside : ∀ l ∈ ls, (b'.get l).isSet = true → (b'.get l).drive.Inside) : b'.Consistent ls where
  valid l hl := lt_of_lt_of_le (h.valid l hl) hsize
  nodup := h.nodup
  target l hl g hg := by
    rw [htarget l hl] at hg
    obtain ⟨hmem, hone, hother⟩ := h.target l hl g hg
    refine ⟨hmem, (hreached g hmem l hl).trans hone, fun m hm hne => ?_⟩
    rw [← List.count_eq_zero, hreached m hm l hl, List.count_eq_zero]
    exact hother m hm hne
  inside l hl hset := Bits.without_eq_zero.2 (hinside l hl hset)

theorem inside_drive (h : b.Consistent ls) {l : Label} (hl : l ∈ ls) (hset : (b.get l).isSet = true) :
    (b.get l).drive.Inside := Bits.without_eq_zero.1 (h.inside l hl hset)

theorem of_extends (h : b.Consistent ls) (hb : b.Extends b') : b'.Consistent ls := by
  have hget : ∀ l ∈ ls, b'.get l = b.get l := fun l hl => hb.get_eq l (h.valid l hl)
  refine h.congr hb.size_le (fun l hl => by rw [hget l hl]) (fun m hm l _ => by rw [hget m hm]) fun l hl hset => ?_
  rw [hget l hl] at hset ⊢
  exact h.inside_drive hl hset

theorem of_retimed (h : b.Consistent ls) (hb : b.Retimed b') : b'.Consistent ls := by
  refine h.congr hb.size_eq.ge (fun l _ => hb.sameLinks.target l) (fun m _ l _ => by rw [hb.sameLinks.reachedBy])
    fun l hl hset => ?_
  rw [hb.drive_eq]
  exact h.inside_drive hl (by rwa [← hb.isSet_eq])

/-! ## Uniting SETs -/

section Unite

variable {g : List Label} {u : Label}

/-- A jump to one of several instructions is listed by them once, all in all. -/
theorem count_flatMap (h : b.Consistent (g ++ ls)) {l x : Label} (hl : l ∈ g ++ ls) (hx : x ∈ g)
    (htarget : (b.get l).target? = some x) : (g.flatMap fun m => (b.get m).reachedBy).count l = 1 := by
  obtain ⟨-, hone, hother⟩ := h.target l hl x htarget
  obtain ⟨before, after, rfl⟩ := List.append_of_mem hx
  have hnodup := h.nodup.of_append_left
  have hzero : ∀ ms : List Label, (∀ m ∈ ms, m ∈ before ++ x :: after ∧ m ≠ x) →
      (ms.flatMap fun m => (b.get m).reachedBy).count l = 0 := fun ms hms => by
    rw [List.count_eq_zero, List.mem_flatMap]
    rintro ⟨m, hm, hlm⟩
    exact hother m (List.mem_append_left _ (hms m hm).1) (hms m hm).2 hlm
  rw [List.flatMap_append, List.flatMap_cons, List.count_append, List.count_append, hone, hzero before, hzero after]
  · intro m hm
    refine ⟨by simp [hm], ?_⟩
    rintro rfl
    exact (List.nodup_cons.1 hnodup.of_append_right).1 hm
  · intro m hm
    refine ⟨by simp [hm], ?_⟩
    rintro rfl
    exact (List.disjoint_of_nodup_append hnodup) hm List.mem_cons_self

/-- A jump is listed by one of several instructions only if it goes there. -/
theorem mem_flatMap_iff (h : b.Consistent (g ++ ls)) {l t : Label} (hl : l ∈ g ++ ls)
    (htarget : (b.get l).target? = some t) : l ∈ g.flatMap (fun m => (b.get m).reachedBy) ↔ t ∈ g := by
  obtain ⟨-, hone, hother⟩ := h.target l hl t htarget
  rw [List.mem_flatMap]
  constructor
  · rintro ⟨m, hm, hlm⟩
    by_contra ht
    exact hother m (List.mem_append_left _ hm) (fun heq => ht (heq ▸ hm)) hlm
  · intro ht
    exact ⟨t, ht, List.count_pos_iff.1 (by omega)⟩

/-- A jump to one of the united SETs goes to the new one, which lists it once; another one goes where it went. -/
theorem target_of_unites (h : b.Consistent (g ++ ls)) (hu : b.Unites g u b') {l t : Label} (hl : l ∈ ls)
    (ht : (b'.get l).target? = some t) :
    t ∈ u :: ls ∧ (b'.get t).reachedBy.count l = 1 ∧ ∀ m ∈ u :: ls, m ≠ t → l ∉ (b'.get m).reachedBy := by
  have hmem : ∀ m ∈ ls, m ∈ g ++ ls := fun m hm => List.mem_append_right _ hm
  have hreached : ∀ m ∈ ls, (b'.get m).reachedBy = (b.get m).reachedBy := fun m hm =>
    hu.reachedBy_eq (h.valid m (hmem m hm))
  obtain ⟨time, block, d, hcell, -⟩ := hu.cell
  rw [hu.old l (h.valid l (hmem l hl))] at ht
  split at ht
  · rename_i hlisted
    rw [Instruction.target?_retarget] at ht
    obtain ⟨x, hx, rfl⟩ := Option.map_eq_some_iff.1 ht
    have hxg := (h.mem_flatMap_iff (hmem l hl) hx).1 hlisted
    refine ⟨List.mem_cons_self, ?_, fun m hm hne => ?_⟩
    · rw [hcell]
      exact h.count_flatMap (hmem l hl) hxg hx
    · have hm := (List.mem_cons.1 hm).resolve_left hne
      rw [hreached m hm]
      refine (h.target l (hmem l hl) x hx).2.2 m (hmem m hm) ?_
      rintro rfl
      exact List.disjoint_of_nodup_append h.nodup hxg hm
  · -- none of the united SETs lists the jump, so its target is not among them
    rename_i hlisted
    obtain ⟨htm, hone, hother⟩ := h.target l (hmem l hl) t ht
    have htg : t ∉ g := fun htg => hlisted ((h.mem_flatMap_iff (hmem l hl) ht).2 htg)
    have htls : t ∈ ls := (List.mem_append.1 htm).resolve_left htg
    refine ⟨List.mem_cons_of_mem _ htls, by rw [hreached t htls, hone], fun m hm hne => ?_⟩
    rcases List.mem_cons.1 hm with rfl | hm
    · rw [hcell]
      exact hlisted
    · rw [hreached m hm]
      exact hother m (hmem m hm) hne

theorem of_unites (h : b.Consistent (g ++ ls)) (hu : b.Unites g u b') : b'.Consistent (u :: ls) := by
  have hlt : ∀ l ∈ ls, l < b.size := fun l hl => h.valid l (List.mem_append_right _ hl)
  have hnew : u ∉ ls := fun hmem => by
    have := hlt u hmem
    rw [hu.label] at this
    exact lt_irrefl _ this
  obtain ⟨time, block, d, hcell, -, -, hunion⟩ := hu.cell
  refine ⟨fun l hl => ?_, List.nodup_cons.2 ⟨hnew, h.nodup.of_append_right⟩, fun l hl t ht => ?_, fun l hl hset => ?_⟩
  · rw [hu.size]
    rcases List.mem_cons.1 hl with rfl | hl
    · rw [hu.label]
      exact Nat.lt_succ_self _
    · exact Nat.lt_succ_of_lt (hlt l hl)
  · rcases List.mem_cons.1 hl with rfl | hl
    · rw [hcell] at ht
      cases ht
    · exact h.target_of_unites hu hl ht
  · rcases List.mem_cons.1 hl with rfl | hl
    · rw [hcell]
      exact Bits.without_eq_zero.2 hunion.inside
    · rw [hu.isSet_eq (hlt l hl)] at hset
      rw [hu.get_of_isSet (hlt l hl) hset]
      exact h.inside l (List.mem_append_right _ hl) hset

end Unite

/-- One group after the other: `gs` are the groups left, `us` the SETs made so far. -/
theorem foldlM_uniteGroup {controlMask : Int} {others : List Label} {gs : List (List Label)} :
    ∀ {us us' : List Label} {b b' : Board}, b.Consistent (gs.flatten ++ (us ++ others)) →
      (∀ g ∈ gs, ∀ l ∈ g, (b.get l).isSet = true) →
      (gs.foldlM (Draft.uniteGroup controlMask) (us, b)).outcome = .ok (us', b') → b'.Consistent (us' ++ others) := by
  induction gs with
  | nil =>
    intro us us' b b' h _ hfold
    cases hfold
    exact h
  | cons g gs ih =>
    intro us us' b b' h hsets hfold
    obtain ⟨⟨us₁, b₁⟩, hone, hrest⟩ := Attempt.foldlM_cons_eq_ok.1 hfold
    obtain ⟨u, hus, hcase⟩ := Draft.uniteGroup_eq_ok hone
    simp only at hus hcase
    subst hus
    have hrestSets : ∀ g' ∈ gs, ∀ l ∈ g', (b.get l).isSet = true := fun g' hg' => hsets g' (List.mem_cons_of_mem _ hg')
    have hmove : (gs.flatten ++ (us ++ [u] ++ others)).Perm (u :: (gs.flatten ++ (us ++ others))) := by
      rw [List.append_assoc us, List.singleton_append]
      exact (List.perm_middle.append_left _).trans List.perm_middle
    rw [List.flatten_cons, List.append_assoc] at h
    rcases hcase with ⟨rfl, rfl⟩ | hunite
    · exact ih (h.perm hmove) hrestSets hrest
    · have hu := unites_of_unite (fun l hl => h.inside_drive (List.mem_append_left _ hl)
        (hsets g List.mem_cons_self l hl)) hunite
      refine ih ((h.of_unites hu).perm hmove) (fun g' hg' l hl => ?_) hrest
      rw [hu.isSet_eq (h.valid l (List.mem_append_right _ (List.mem_append_left _ (List.mem_flatten_of_mem hg' hl))))]
      exact hrestSets g' hg' l hl

end Consistent

end Board

namespace Draft

variable {d d' : Draft}

/-! ## The passes -/

/-- The groups of a draft hold its SETs, each once. -/
theorem perm_gathered (h : d.list.Nodup) : d.gathered.flatten.Perm d.sets := by
  have hsets : d.sets.Nodup := h.filter _
  have hmem : ∀ l, l ∈ d.gathered.flatten ↔ l ∈ d.sets := fun l => by
    simp only [gathered, List.mem_flatten, List.mem_map]
    constructor
    · rintro ⟨-, ⟨k, hk, rfl⟩, hl⟩
      exact ((mem_members hk).1 hl).1
    · intro hl
      exact ⟨_, ⟨_, keyOf_mem_groups hl, rfl⟩, mem_members_keyOf hl⟩
  refine (List.perm_ext_iff_of_nodup (List.nodup_flatten.2 ⟨fun g hg => ?_, ?_⟩) hsets).2 hmem
  · obtain ⟨k, -, rfl⟩ := List.mem_map.1 hg
    exact nodup_members hsets k
  · refine List.pairwise_map.2 ((nodup_groups d.board d.sets).imp_of_mem fun hk hk' hne l hl hl' => hne ?_)
    exact ((mem_members hk).1 hl).2.symm.trans ((mem_members hk').1 hl').2

theorem consistent_sort (h : d.board.Consistent d.list) : d.sort.board.Consistent d.sort.list :=
  h.perm (perm_sorted _ _)

theorem consistent_mergeSets {controlMask : Int} (h : d.board.Consistent d.list)
    (hm : (d.mergeSets controlMask).outcome = .ok d') : d'.board.Consistent d'.list := by
  obtain ⟨⟨us, b⟩, hfold, hd⟩ := Attempt.bind_eq_ok.1 hm
  cases hd
  have hsplit : (d.gathered.flatten ++ ([] ++ d.list.filter fun l => !(d.board.get l).isSet)).Perm d.list :=
    ((perm_gathered h.nodup).append_right _).trans (List.filter_append_perm _ _)
  have hsets : ∀ g ∈ d.gathered, ∀ l ∈ g, (d.board.get l).isSet = true := fun g hg l hl =>
    (mem_sets.1 ((perm_gathered h.nodup).mem_iff.1 (List.mem_flatten_of_mem hg hl))).2
  exact ((h.perm hsplit).foldlM_uniteGroup hsets hfold).perm ((perm_sorted _ _).trans List.perm_append_comm)

/-- A SET that inherits keeps to its mask. -/
theorem consistent_inheritFrom {mask : Int} {ls rest : List Label} : ∀ {previous : Label} {b : Board}, b.Consistent ls →
    (∀ l ∈ rest, (b.get l).isSet = true) → (inheritFrom mask previous b rest).Consistent ls := by
  induction rest with
  | nil => exact fun h _ => h
  | cons x rest ih =>
    intro previous b h hsets
    have hx := hsets x List.mem_cons_self
    have hget : ∀ l, (b.inherit x previous mask).get l = b.get l ∨ (l = x ∧ (b.inherit x previous mask).get l =
        (b.get l).withDrive (Board.inheritDrive (b.get l).drive (b.get previous).drive mask)) := fun l => by
      rw [Board.inherit, Board.get_modify]
      split
      · rename_i hl
        exact .inr ⟨hl.1, rfl⟩
      · exact .inl rfl
    refine ih (h.congr ?_ (fun l _ => ?_) (fun m _ l _ => ?_) fun l hl hset => ?_) fun l hl => ?_
    · rw [Board.inherit, Board.size_modify]
    · rcases hget l with heq | ⟨rfl, heq⟩ <;> rw [heq]
      exact (Instruction.target?_of_isSet hx).symm
    · rcases hget m with heq | ⟨-, heq⟩ <;> rw [heq]
      rfl
    · rcases hget l with heq | ⟨rfl, heq⟩ <;> rw [heq] at hset ⊢
      · exact h.inside_drive hl hset
      · exact Board.inside_inheritDrive (h.inside_drive hl hx) mask
    · rcases hget l with heq | ⟨-, heq⟩ <;> rw [heq]
      · exact hsets l (List.mem_cons_of_mem _ hl)
      · rfl

theorem consistent_inheritOutputs {mask : Int} (h : d.board.Consistent d.list) (hi : d.inheritOutputs mask = .ok d') :
    d'.board.Consistent d'.list := by
  obtain ⟨hlist, hcase⟩ := inheritOutputs_eq_ok hi
  rw [hlist]
  refine Board.Consistent.perm ?_ (perm_sorted _ _)
  rcases hcase with ⟨-, hboard⟩ | ⟨first, rest, hcons, -, hboard⟩
  · rwa [hboard]
  · rw [hboard]
    refine consistent_inheritFrom h fun l hl => ?_
    have hmem : l ∈ d.sort.sets := hcons ▸ List.mem_cons_of_mem _ hl
    exact (mem_sets.1 hmem).2

/-- What fills a gap is reached by no jump, and is none. A SET there drives what an earlier SET drives. -/
theorem Covers.mem_or_copy {b : Board} {last : Int} {held : Option Label} {ls filled : List Label}
    (h : Covers b last held ls filled) : ∀ x ∈ filled, x ∈ ls ∨ ((b.get x).target? = none ∧ (b.get x).reachedBy = [] ∧
      ((b.get x).isSet = true → ∃ y, (held = some y ∨ (y ∈ ls ∧ (b.get y).isSet = true)) ∧
        (b.get x).drive = { (b.get y).drive with marker := false })) := by
  induction h with
  | nil => simp
  | @next last held l ls filled _ _ ih =>
    intro x hx
    rcases List.mem_cons.1 hx with rfl | hx
    · exact .inl List.mem_cons_self
    refine (ih x hx).imp (List.mem_cons_of_mem _) fun ⟨htarget, hreached, hdrive⟩ =>
      ⟨htarget, hreached, fun hset => ?_⟩
    obtain ⟨y, hy | ⟨hy, hyset⟩, heq⟩ := hdrive hset
    · unfold heldAfter at hy
      split at hy
      · cases hy
        exact ⟨l, .inr ⟨List.mem_cons_self, by assumption⟩, heq⟩
      · exact ⟨y, .inl hy, heq⟩
    · exact ⟨y, .inr ⟨List.mem_cons_of_mem _ hy, hyset⟩, heq⟩
  | @hold last g y l ls filled _ _ hget _ ih =>
    intro x hx
    rcases List.mem_cons.1 hx with rfl | hx
    · rw [hget]
      exact .inr ⟨rfl, rfl, fun _ => ⟨g, .inl rfl, rfl⟩⟩
    · exact ih x hx
  | wait _ _ _ hget _ ih =>
    intro x hx
    rcases List.mem_cons.1 hx with rfl | hx
    · rw [hget]
      exact .inr ⟨rfl, rfl, nofun⟩
    · exact ih x hx

theorem consistent_fillGaps (h : d.board.Consistent d.list) (hf : d.fillGaps = .ok d') :
    d'.board.Consistent d'.list := by
  obtain ⟨⟨filled, b⟩, hfill, hd⟩ := Except.bind_eq_ok.1 hf
  cases hd
  have hs := h.perm (perm_sorted d.board d.list)
  obtain ⟨hext, hcov⟩ := covers_of_fillFrom hs.valid (by simp) hfill
  have hb := hs.of_extends hext
  change b.Consistent filled
  refine ⟨hcov.lt_size hb.valid, hcov.increasing.imp fun hlt heq => ?_, fun l hl g hg => ?_, fun l hl hset => ?_⟩
  · exact (heq ▸ hlt).false
  · rcases hcov.mem_or_copy l hl with hl | ⟨hnone, -⟩
    · obtain ⟨hmem, hone, hother⟩ := hb.target l hl g hg
      refine ⟨hcov.subset g hmem, hone, fun m hm hne => ?_⟩
      rcases hcov.mem_or_copy m hm with hm | ⟨-, hreached, -⟩
      · exact hother m hm hne
      · rw [hreached]
        exact List.not_mem_nil
    · rw [hnone] at hg
      cases hg
  · rcases hcov.mem_or_copy l hl with hl | ⟨-, -, hdrive⟩
    · exact hb.inside l hl hset
    · obtain ⟨y, hy | ⟨hy, hyset⟩, heq⟩ := hdrive hset
      · cases hy
      · rw [heq]
        exact hb.inside y hy hyset

theorem consistent_applyPolarity (h : d.board.Consistent d.list) (polarity : Int) :
    (d.applyPolarity polarity).board.Consistent (d.applyPolarity polarity).list := by
  have hget : ∀ l ∈ d.list, (d.applyPolarity polarity).board.get l = (d.board.get l).polarize polarity := fun l hl =>
    get_applyPolarity polarity hl
  refine h.congr (size_applyPolarity d polarity).ge (fun l hl => ?_) (fun m hm l _ => ?_) fun l hl hset => ?_
  · rw [hget l hl, Instruction.polarize]
    split
    · exact (Instruction.target?_of_isSet (by assumption)).symm
    · rfl
  · rw [hget m hm, reachedBy_polarize]
  · rw [hget l hl] at hset ⊢
    unfold Instruction.polarize at hset ⊢
    split
    · exact h.inside_drive hl (by assumption)
    · rename_i hno
      rw [if_neg hno] at hset
      exact absurd hset hno

/-! ## Addresses -/

/-- Addresses are given to all of a list, and nothing else changes. -/
theorem addressFrom_eq_ok {ls : List Label} : ∀ {last : Int} {next : Nat} {b b' : Board},
    addressFrom last next b ls = .ok b' → b'.size = b.size ∧
      (∀ l, b'.get l = { b.get l with address := (b'.get l).address }) ∧
      ∀ l, l < b.size → l ∈ ls ∨ (b.get l).address ≠ none → (b'.get l).address ≠ none := by
  induction ls with
  | nil =>
    intro last next b b' h
    cases h
    exact ⟨rfl, fun _ => rfl, fun l _ hl => hl.resolve_left List.not_mem_nil⟩
  | cons x ls ih =>
    intro last next b b' h
    unfold addressFrom at h
    simp only at h
    split at h
    · cases h
    obtain ⟨hsize, hget, haddress⟩ := ih h
    rw [Board.size_modify] at hsize haddress
    refine ⟨hsize, fun l => ?_, fun l hlt hl => haddress l hlt ?_⟩
    · have hl := hget l
      rw [Board.get_modify] at hl
      split at hl <;> exact hl
    · rw [Board.get_modify]
      split
      · exact .inr (Option.some_ne_none _)
      · rename_i hne
        rcases hl with hl | hl
        · rcases List.mem_cons.1 hl with rfl | hl
          · exact absurd ⟨rfl, hlt⟩ hne
          · exact .inl hl
        · exact .inr hl

theorem consistent_assignAddresses (h : d.board.Consistent d.list) (ha : d.assignAddresses = .ok d') :
    d'.board.Consistent d'.list ∧ ∀ l ∈ d'.list, (d'.board.get l).address ≠ none := by
  obtain ⟨b, hb, hd⟩ := Except.bind_eq_ok.1 ha
  cases hd
  have hs := consistent_sort h
  obtain ⟨hsize, hget, haddress⟩ := addressFrom_eq_ok hb
  refine ⟨hs.congr hsize.ge (fun l _ => ?_) (fun m _ l _ => ?_) fun l hl hset => ?_, fun l hl => ?_⟩
  · change (b.get l).target? = _
    rw [hget l]
    rfl
  · change (b.get m).reachedBy.count l = _
    rw [hget m]
  · change (b.get l).drive.Inside
    change (b.get l).isSet = true at hset
    rw [hget l] at hset ⊢
    exact hs.inside_drive hl hset
  · exact haddress l (hs.valid l hl) (.inl hl)

theorem consistent_place [Collation] {length : Int} (h : d.board.Consistent d.list)
    (hp : (d.place length).outcome = .ok d') : d'.board.Consistent d'.list := by
  have hplaced := placed_of_place h.valid h.nodup hp
  exact (h.of_retimed hplaced.retimed).perm hplaced.perm

end Draft

/-! ## New instructions -/

/-- A new instruction on a board. -/
inductive Board.Creates (b : Board) : Board → Prop
  | wait (time : Int) (duration : Binary64) (block : Option String) : Creates b (b.addWait time duration block).2
  | stop (time : Int) (block : Option String) : Creates b (b.addEnd time block).2
  | set {time value mask : Int} {block : Option String} {marker : Bool} {l : Label} {b' : Board}
      (h : b.addSet time value mask block marker = .ok (l, b')) : Creates b b'
  | jump (time : Int) {target : Label} (always : Bool) (channel threshold : Binary64) (block : Option String)
      (h : target < b.size) : Creates b (b.addJump time target always channel threshold block).2

/-- A list does not notice instructions that are not part of it, nor that they jump into it. -/
theorem Board.Consistent.of_creates {b b' : Board} {ls : List Label} (h : b.Consistent ls) (hb : b.Creates b') :
    b'.Consistent ls := by
  cases hb with
  | wait time duration block => exact h.of_extends (.add b _)
  | stop time block => exact h.of_extends (.add b _)
  | set hset =>
    obtain ⟨-, heq⟩ := addSet_eq_ok.1 hset
    rw [show b' = _ from congrArg Prod.snd heq]
    exact h.of_extends (.add b _)
  | @jump time target always channel threshold block htarget =>
    have hget : ∀ l ∈ ls, (b.addJump time target always channel threshold block).2.get l =
        if l = target then { b.get target with reachedBy := (b.get target).reachedBy ++ [b.size] } else b.get l :=
      fun l hl => by rw [get_addJump b time target always channel threshold block htarget, if_neg (h.valid l hl).ne]
    refine h.congr ?_ (fun l hl => ?_) (fun m hm l hl => ?_) fun l hl hset => ?_
    · rw [size_addJump]
      exact Nat.le_succ _
    · rw [hget l hl]
      split
      · rename_i heq
        rw [heq]
        rfl
      · rfl
    · rw [hget m hm]
      split
      · rename_i heq
        rw [heq, List.count_append, List.count_singleton, beq_eq_false_iff_ne.2 (h.valid l hl).ne']
        rfl
      · rfl
    · rw [hget l hl] at hset ⊢
      split
      · rename_i heq
        rw [if_pos heq] at hset
        subst heq
        exact h.inside_drive hl hset
      · rename_i hne
        rw [if_neg hne] at hset
        exact h.inside_drive hl hset

namespace Draft

variable {d d' : Draft}

/-- Instructions that can be added: they are new and distinct, their jumps and SETs are as those of the list, and no
jump of the list is listed by one of them. -/
structure Accepts (d : Draft) (labels : List Label) : Prop where
  valid : ∀ l ∈ labels, l < d.board.size
  nodup : labels.Nodup
  new : ∀ l ∈ labels, l ∉ d.list
  target : ∀ l ∈ labels, ∀ g ∈ (d.board.get l).target?, g ∈ d.list ++ labels ∧
    (d.board.get g).reachedBy.count l = 1 ∧ ∀ m ∈ d.list ++ labels, m ≠ g → l ∉ (d.board.get m).reachedBy
  apart : ∀ l ∈ d.list, (d.board.get l).target? ≠ none → ∀ m ∈ labels, l ∉ (d.board.get m).reachedBy
  inside : ∀ l ∈ labels, (d.board.get l).isSet = true →
    Bits.without (d.board.get l).drive.value (d.board.get l).drive.mask = 0

theorem consistent_append {labels : List Label} (h : d.board.Consistent d.list) (ha : d.Accepts labels) :
    d.board.Consistent (d.list ++ labels) := by
  refine ⟨fun l hl => ?_, h.nodup.append ha.nodup fun l hl hl' => ha.new l hl' hl, fun l hl g hg => ?_, fun l hl => ?_⟩
  · exact (List.mem_append.1 hl).elim (h.valid l) (ha.valid l)
  · rcases List.mem_append.1 hl with hl | hl
    · obtain ⟨hmem, hone, hother⟩ := h.target l hl g hg
      refine ⟨List.mem_append_left _ hmem, hone, fun m hm hne => ?_⟩
      rcases List.mem_append.1 hm with hm | hm
      · exact hother m hm hne
      · exact ha.apart l hl (by rw [Option.mem_def.1 hg]; nofun) m hm
    · exact ha.target l hl g hg
  · exact (List.mem_append.1 hl).elim (h.inside l) (ha.inside l)

/-! ## Runs -/

/-- What can be done to a draft. Passes that fail are no steps. -/
inductive Step [Collation] (d : Draft) : Draft → Prop
  | create {b : Board} (h : d.board.Creates b) : Step d { d with board := b }
  | append {labels : List Label} (h : d.Accepts labels) : Step d (d.append labels)
  | sort : Step d d.sort
  | mergeSets {controlMask : Int} {d' : Draft} (h : (d.mergeSets controlMask).outcome = .ok d') : Step d d'
  | inheritOutputs {mask : Int} {d' : Draft} (h : d.inheritOutputs mask = .ok d') : Step d d'
  | fillGaps {d' : Draft} (h : d.fillGaps = .ok d') : Step d d'
  | applyPolarity (polarity : Int) : Step d (d.applyPolarity polarity)
  | assignAddresses {d' : Draft} (h : d.assignAddresses = .ok d') : Step d d'
  | place {length : Int} {d' : Draft} (h : (d.place length).outcome = .ok d') : Step d d'

theorem consistent_of_step [Collation] (h : d.board.Consistent d.list) (hstep : d.Step d') :
    d'.board.Consistent d'.list := by
  cases hstep with
  | create hb => exact h.of_creates hb
  | append ha => exact consistent_append h ha
  | sort => exact consistent_sort h
  | mergeSets hm => exact consistent_mergeSets h hm
  | inheritOutputs hi => exact consistent_inheritOutputs h hi
  | fillGaps hf => exact consistent_fillGaps h hf
  | applyPolarity polarity => exact consistent_applyPolarity h polarity
  | assignAddresses ha => exact (consistent_assignAddresses h ha).1
  | place hp => exact consistent_place h hp

theorem consistent_of_steps [Collation] (h : d.board.Consistent d.list) (hsteps : Relation.ReflTransGen Step d d') :
    d'.board.Consistent d'.list := by
  induction hsteps with
  | refl => exact h
  | tail _ hstep ih => exact consistent_of_step ih hstep

end Draft

/-! ## Encoding -/

/-- The fault of a jump that its target does not list. -/
def Board.unregistered (tick : Int) : Fault :=
  ⟨.internal, none, "JUMP at tick " ++ wholeText tick ++ " is not registered with its target"⟩

/-- The fault of a jump to an instruction without a place. -/
def Board.unaddressed (tick : Int) : Fault :=
  ⟨.internal, none, "JUMP at tick " ++ wholeText tick ++ " targets an instruction without an address"⟩

theorem Board.unaddressed_ne_unregistered (tick tick' : Int) : unaddressed tick ≠ unregistered tick' := by
  intro h
  -- the texts end in different letters
  have htext := congrArg (fun f => f.message.toList.getLast?) h
  simp only [unaddressed, unregistered, String.toList_append, List.getLast?_append] at htext
  simp at htext

/-- Where a consistent list is not encoded, a field does not fit, or the target of a jump has no address. -/
theorem Board.Consistent.operation_error {b : Board} {ls : List Label} (h : b.Consistent ls) {l : Label} (hl : l ∈ ls)
    {f : Fault} (hf : b.operation l = .error f) : f.kind = .fieldOverflow ∨
      ∃ g ∈ ls, (b.get g).address = none ∧ f = unaddressed (b.time l) := by
  unfold operation at hf
  simp only at hf
  split at hf
  · split at hf
    · cases hf
    · cases hf
      exact .inl rfl
  · split at hf
    · cases hf
    · cases hf
      exact .inl rfl
  · rename_i always channel threshold g hact
    obtain ⟨hg, hone, -⟩ := h.target l hl g (by rw [Instruction.target?, hact]; rfl)
    have hlisted : l ∈ (b.get g).reachedBy := List.count_pos_iff.1 (by omega)
    rw [if_neg (by simpa using hlisted)] at hf
    split at hf
    · rename_i hnone
      cases hf
      exact .inr ⟨g, hg, hnone, rfl⟩
    · left
      split at hf
      · cases hf
        rfl
      split at hf
      · cases hf
        rfl
      split at hf
      · cases hf
        rfl
      · cases hf
  · cases hf

/-- Whatever is done to a consistent draft, it stays so. No jump of it is encoded without its target knowing of it, and
once addresses have been given, only a field can be too large. -/
theorem Draft.links_of_steps [Collation] {d d' : Draft} (h : d.board.Consistent d.list)
    (hsteps : Relation.ReflTransGen Step d d') : d'.board.Consistent d'.list ∧
      (∀ f, d'.encode = .error f → ∀ tick, f ≠ Board.unregistered tick) ∧
      ∀ a, d'.assignAddresses = .ok a → a.board.Consistent a.list ∧
        ∀ f, a.encode = .error f → f.kind = .fieldOverflow ∧ ∀ tick, f ≠ Board.unaddressed tick := by
  have hd' := consistent_of_steps h hsteps
  refine ⟨hd', fun f hf tick => ?_, fun a ha => ?_⟩
  · obtain ⟨l, hl, hop⟩ := exists_of_encode_error hf
    rcases hd'.operation_error hl hop with hkind | ⟨-, -, -, rfl⟩
    · rintro rfl
      cases hkind
    · exact Board.unaddressed_ne_unregistered _ _
  · obtain ⟨hcons, haddress⟩ := consistent_assignAddresses hd' ha
    refine ⟨hcons, fun f hf => ?_⟩
    obtain ⟨l, hl, hop⟩ := exists_of_encode_error hf
    have hkind : f.kind = .fieldOverflow :=
      (hcons.operation_error hl hop).resolve_right fun ⟨g, hg, hnone, _⟩ => haddress g hg hnone
    refine ⟨hkind, fun tick heq => ?_⟩
    rw [heq] at hkind
    cases hkind

/-- A jump back to one of two SETs of a tick, and an end. -/
def Draft.looping : Draft where
  board := ⟨#[⟨0, none, none, [], .set ⟨1, 1, 0, false⟩⟩, ⟨0, none, none, [2], .set ⟨2, 6, 0, false⟩⟩,
    ⟨3, none, none, [], .jump false 1 40 1⟩, ⟨6, none, none, [], .stop⟩]⟩
  list := [0, 2, 1, 3]
  past := []

theorem Draft.looping_keeps_links : looping.board.Consistent looping.list ∧ ∃ d' a,
    Relation.ReflTransGen Step looping d' ∧ d'.board.Consistent d'.list ∧ d'.assignAddresses = .ok a ∧
      a.board.Consistent a.list ∧ ∀ f, a.encode = .error f → f.kind = .fieldOverflow := by
  have hlooping : looping.board.Consistent looping.list := by decide +kernel
  have hrun : ((looping.mergeSets 0).outcome.toOption.bind fun d => d.fillGaps.toOption.bind fun d =>
      d.assignAddresses.toOption).isSome = true := by decide +kernel
  have hok : ∀ {ε α : Type} {e : Except ε α} {x : α}, e.toOption = some x → e = .ok x := fun {ε α e x} h => by
    cases e with
    | error => cases h
    | ok => exact congrArg _ (Option.some.inj h)
  obtain ⟨a, hrun⟩ := Option.isSome_iff_exists.1 hrun
  obtain ⟨d₁, hmerge, hrun⟩ := Option.bind_eq_some_iff.1 hrun
  obtain ⟨d₂, hfill, haddress⟩ := Option.bind_eq_some_iff.1 hrun
  have hsteps : Relation.ReflTransGen Step looping d₂ :=
    .tail (.single (.mergeSets (hok hmerge))) (.fillGaps (hok hfill))
  obtain ⟨hd, -, hafter⟩ := links_of_steps hlooping hsteps
  obtain ⟨ha, hencode⟩ := hafter a (hok haddress)
  exact ⟨hlooping, d₂, a, hsteps, hd, hok haddress, ha, fun f hf => (hencode f hf).1⟩

end PulseSequencer
