import PulseSequencer.Proofs.Merge

/-!
# Merging reaches a normal form

A merge puts the instructions in order, and leaves one SET for each block at a tick and one for the free SETs of a tick
without blocks. Where a draft is like that already, a merge finds every SET alone in its group and changes nothing.

* `Draft.Normal` : drafts in normal form;
* `Draft.Normal.mergeSets_eq`, `Draft.normal_of_increasing` : a merge leaves them as they are;
* `Board.Rerouted`, `Draft.Stands` : what a merge does to the old instructions, and the SETs that stand for the groups;
* `Draft.Condensed`, `Draft.condensed_of_mergeSets`, `Draft.Condensed.normal` : a merge reaches the normal form.
-/

namespace PulseSequencer

namespace Draft

/-- The tick and the block of a SET. -/
def spotOf (b : Board) (l : Label) : Group := ⟨b.time l, (b.get l).block⟩

/-- The instructions are in order and distinct. No two SETs share a tick and a block, and there is no free SET at the
tick of a SET in a block. -/
structure Normal (d : Draft) : Prop where
  ordered : d.list.Pairwise fun x y => (d.board.get x).before (d.board.get y) = true
  nodup : d.list.Nodup
  single : ∀ l ∈ d.sets, ∀ m ∈ d.sets, spotOf d.board l = spotOf d.board m → l = m
  hosted : ∀ l ∈ d.sets, ∀ m ∈ d.sets, d.board.time l = d.board.time m → (d.board.get l).block = none →
    (d.board.get m).block = none

/-- Instructions with increasing ticks are in normal form. -/
theorem normal_of_increasing {d : Draft} (h : d.list.Pairwise fun x y => d.board.time x < d.board.time y) :
    d.Normal := by
  have hinj : ∀ l ∈ d.sets, ∀ m ∈ d.sets, d.board.time l = d.board.time m → l = m := by
    intro l hl m hm htime
    have hsymm : Std.Symm fun x y : Label => d.board.time x ≠ d.board.time y := ⟨fun _ _ h => h.symm⟩
    by_contra hne
    exact (h.imp ne_of_lt).forall (mem_sets.1 hl).1 (mem_sets.1 hm).1 hne htime
  refine ⟨h.imp fun hlt => Instruction.before_iff.2 (.inl hlt), h.imp fun hlt heq => ?_, fun l hl m hm heq => ?_,
    fun l hl m hm htime hfree => ?_⟩
  · rw [heq] at hlt
    exact lt_irrefl _ hlt
  · exact hinj l hl m hm (congrArg Group.time heq)
  · rwa [← hinj l hl m hm htime]

/-! ## A draft in normal form -/

theorem foldlM_uniteGroup_singletons {controlMask : Int} {xs : List Label} : ∀ {us : List Label} {b : Board},
    (xs.map fun l => [l]).foldlM (uniteGroup controlMask) (us, b) = (pure (us ++ xs, b) : Attempt _) := by
  induction xs with
  | nil =>
    intro us b
    rw [List.append_nil]
    rfl
  | cons x xs ih =>
    intro us b
    rw [List.map_cons, List.foldlM_cons, show uniteGroup controlMask (us, b) [x] = pure (us ++ [x], b) from rfl,
      pure_bind, ih, List.append_assoc, List.singleton_append]

/-- The SETs in blocks, then the free ones. -/
def parted (d : Draft) : List Label :=
  d.sets.filter (fun l => (d.board.get l).block.isSome) ++ d.sets.filter fun l => !(d.board.get l).block.isSome

namespace Normal

variable {d : Draft} (h : d.Normal)

include h

theorem nodup_sets : d.sets.Nodup := h.nodup.filter _

theorem hostAt_eq_none_of_free {l : Label} (hl : l ∈ d.sets) (hfree : (d.board.get l).block = none) :
    hostAt d.board d.sets (d.board.time l) = none :=
  hostAt_eq_none.2 fun m hm htime => h.hosted l hl m hm htime.symm hfree

theorem keyOf_eq_spotOf {l : Label} (hl : l ∈ d.sets) : keyOf d.board d.sets l = spotOf d.board l := by
  rw [keyOf, spotOf]
  cases hblock : (d.board.get l).block with
  | none => rw [h.hostAt_eq_none_of_free hl hblock]; rfl
  | some name => rfl

/-- Every SET is alone in its group. -/
theorem members_spotOf {l : Label} (hl : l ∈ d.sets) : members d.board d.sets (spotOf d.board l) = [l] := by
  rw [← h.keyOf_eq_spotOf hl]
  refine List.perm_singleton.1 ((List.perm_ext_iff_of_nodup (nodup_members h.nodup_sets _) (List.nodup_singleton l)).2
    fun x => ?_)
  rw [mem_members (keyOf_mem_groups hl), List.mem_singleton]
  constructor
  · rintro ⟨hx, hkey⟩
    rw [h.keyOf_eq_spotOf hx, h.keyOf_eq_spotOf hl] at hkey
    exact h.single x hx l hl hkey
  · rintro rfl
    exact ⟨hl, rfl⟩

/-- The groups are those of the SETs in blocks, then those of the free ones. -/
theorem groups_eq : groups d.board d.sets = d.parted.map (spotOf d.board) := by
  have hnodup : ∀ p : Label → Bool, ((d.sets.filter p).map (spotOf d.board)).Nodup := fun p =>
    (h.nodup_sets.filter p).map_on fun x hx y hy => h.single x (List.mem_filter.1 hx).1 y (List.mem_filter.1 hy).1
  have hfree : (d.sets.filter fun l => (d.board.get l).block.isNone &&
        (hostAt d.board d.sets (d.board.get l).time).isNone) =
      d.sets.filter fun l => !(d.board.get l).block.isSome := by
    refine List.filter_congr fun l hl => ?_
    cases hblock : (d.board.get l).block with
    | none => rw [← Board.time_eq, h.hostAt_eq_none_of_free hl hblock]; rfl
    | some name => rfl
  have hspot : (d.sets.filter fun l => !(d.board.get l).block.isSome).map
        (fun l => (⟨(d.board.get l).time, none⟩ : Group)) =
      (d.sets.filter fun l => !(d.board.get l).block.isSome).map (spotOf d.board) := by
    refine List.map_congr_left fun l hl => ?_
    have hnone : (d.board.get l).block = none := by simpa using (List.mem_filter.1 hl).2
    rw [spotOf, hnone, Board.time_eq]
  rw [parted, List.map_append, groups, hfree, hspot]
  exact congrArg₂ (· ++ ·) (distinct_of_nodup (hnodup _)) (distinct_of_nodup (hnodup _))

/-- The SETs that share a tick are all in blocks or all free, so sorting finds the list again. -/
theorem sorted_eq : sorted d.board ((d.list.filter fun l => !(d.board.get l).isSet) ++ d.parted) = d.list := by
  refine Eq.trans ?_ (Sort.sortBy_of_pairwise h.ordered)
  refine Sort.sortBy_congr_filter (fun x y => Instruction.before_total (d.board.get x) (d.board.get y))
    (fun _ _ _ => Instruction.before_trans) fun c => ?_
  have halike : ∀ x y, ((d.board.get x).before (d.board.get c) && (d.board.get c).before (d.board.get x)) = true →
      ((d.board.get y).before (d.board.get c) && (d.board.get c).before (d.board.get y)) = true →
      d.board.time x = d.board.time y ∧ (d.board.get x).isSet = (d.board.get y).isSet := by
    intro x y hx hy
    rw [Bool.and_eq_true] at hx hy
    obtain ⟨htime, hopcode⟩ := Instruction.eq_of_before (Instruction.before_trans hx.1 hy.2)
      (Instruction.before_trans hy.1 hx.2)
    exact ⟨htime, Instruction.isSet_eq_of_opcode hopcode⟩
  rw [List.filter_append, parted, Sort.filter_partition, ← List.filter_append]
  · have hsplit := @Sort.filter_partition _
      (fun x => (d.board.get x).before (d.board.get c) && (d.board.get c).before (d.board.get x))
      (fun l => !(d.board.get l).isSet) d.list fun x _ y _ hx hy => by rw [(halike x y hx hy).2]
    simp only [Bool.not_not] at hsplit
    exact hsplit
  · intro x hx y hy hcx hcy
    have htime := (halike x y hcx hcy).1
    have hfree : (d.board.get x).block = none ↔ (d.board.get y).block = none :=
      ⟨h.hosted x hx y hy htime, h.hosted y hy x hx htime.symm⟩
    rw [Bool.eq_iff_iff, Option.isSome_iff_ne_none, Option.isSome_iff_ne_none, not_iff_not]
    exact hfree

/-- A merge leaves a draft in normal form as it is. -/
theorem mergeSets_eq (controlMask : Int) : d.mergeSets controlMask = pure (d.supersede d.list) := by
  have hgathered : (groups d.board d.sets).map (members d.board d.sets) = d.parted.map fun l => [l] := by
    rw [h.groups_eq, List.map_map]
    refine List.map_congr_left fun l hl => h.members_spotOf ?_
    exact (List.mem_append.1 hl).elim (fun hl => (List.mem_filter.1 hl).1) fun hl => (List.mem_filter.1 hl).1
  unfold mergeSets
  simp only [hgathered, foldlM_uniteGroup_singletons, pure_bind, List.nil_append]
  rw [h.sorted_eq]

end Normal

end Draft

/-! ## What a merge leaves -/

/-- The instructions of `b` are in `b'` too, apart from the targets of jumps. -/
structure Board.Rerouted (b b' : Board) : Prop where
  size_le : b.size ≤ b'.size
  get : ∀ l, l < b.size → ∃ f, b'.get l = (b.get l).retarget f

namespace Board.Rerouted

variable {a b c : Board} {l : Label}

theorem refl (b : Board) : b.Rerouted b := ⟨le_refl _, fun _ _ => ⟨id, (Instruction.retarget_id _).symm⟩⟩

theorem trans (h : a.Rerouted b) (h' : b.Rerouted c) : a.Rerouted c := by
  refine ⟨h.size_le.trans h'.size_le, fun l hl => ?_⟩
  obtain ⟨f, hf⟩ := h.get l hl
  obtain ⟨g, hg⟩ := h'.get l (lt_of_lt_of_le hl h.size_le)
  exact ⟨g ∘ f, by rw [hg, hf, Instruction.retarget_retarget]⟩

theorem time_eq (h : a.Rerouted b) (hl : l < a.size) : b.time l = a.time l := by
  obtain ⟨f, hf⟩ := h.get l hl
  rw [Board.time_eq, Board.time_eq, hf, Instruction.time_retarget]

theorem block_eq (h : a.Rerouted b) (hl : l < a.size) : (b.get l).block = (a.get l).block := by
  obtain ⟨f, hf⟩ := h.get l hl
  rw [hf, Instruction.block_retarget]

theorem isSet_eq (h : a.Rerouted b) (hl : l < a.size) : (b.get l).isSet = (a.get l).isSet := by
  obtain ⟨f, hf⟩ := h.get l hl
  rw [hf, Instruction.isSet_retarget]

end Board.Rerouted

namespace Draft

/-- The SET `u` of `b'` stands for the SETs `ls` of `b`, at their tick and in the one block among them. -/
structure Stands (b : Board) (ls : List Label) (u : Label) (b' : Board) : Prop where
  isSet : (b'.get u).isSet = true
  time : ∀ l ∈ ls, b.time l = b'.time u
  block : ls.filterMap (fun l => (b.get l).block) = (b'.get u).block.toList

namespace Stands

variable {a b c : Board} {ls : List Label} {u : Label}

theorem singleton (hu : (b.get u).isSet = true) : Stands b [u] u b := by
  refine ⟨hu, fun l hl => by rw [List.mem_singleton.1 hl], ?_⟩
  cases hblock : (b.get u).block <;> simp [hblock]

theorem reroute (h : Stands a ls u b) (hr : b.Rerouted c) : Stands a ls u c := by
  have hu := Board.lt_size_of_isSet h.isSet
  exact ⟨(hr.isSet_eq hu).trans h.isSet, fun l hl => (h.time l hl).trans (hr.time_eq hu).symm,
    h.block.trans (congrArg _ (hr.block_eq hu).symm)⟩

theorem of_rerouted (h : Stands b ls u c) (hr : a.Rerouted b) (hls : ∀ l ∈ ls, l < a.size) : Stands a ls u c := by
  refine ⟨h.isSet, fun l hl => (hr.time_eq (hls l hl)).symm.trans (h.time l hl), Eq.trans ?_ h.block⟩
  exact List.filterMap_congr fun l hl => (hr.block_eq (hls l hl)).symm

/-- It has the tick and the block of the group. -/
theorem spotOf_eq {sets : List Label} {k : Group} (hk : k ∈ groups a sets) (h : Stands a (members a sets k) u b) :
    spotOf b u = k := by
  obtain ⟨l, hl, rfl⟩ := mem_groups.1 hk
  rw [spotOf, ← h.time l (mem_members_keyOf hl), block_of_filterMap_members hl h.block]
  rfl

end Stands

theorem stands_of_unite {b b' : Board} {controlMask : Int} {ls : List Label} {u : Label}
    (h : (b.unite controlMask ls).outcome = .ok (u, b')) : b.Rerouted b' ∧ Stands b ls u b' := by
  obtain ⟨-, hsize, ⟨time, block, e, hcell, htime, hblock, -⟩, hold⟩ := Board.cells_of_unite h
  refine ⟨⟨by omega, fun m hm => ?_⟩, ⟨by rw [hcell]; rfl, fun l hl => ?_, by rw [hcell]; exact hblock⟩⟩
  · rw [hold m hm]
    split
    · exact ⟨_, rfl⟩
    · exact ⟨id, (Instruction.retarget_id _).symm⟩
  · rw [htime l hl, Board.time_eq, hcell]

theorem stands_of_foldlM {controlMask : Int} {gs : List (List Label)} : ∀ {us₀ us' : List Label} {b b' : Board},
    (∀ g ∈ gs, ∀ l ∈ g, (b.get l).isSet = true) →
    (gs.foldlM (uniteGroup controlMask) (us₀, b)).outcome = .ok (us', b') →
    ∃ us, us' = us₀ ++ us ∧ b.Rerouted b' ∧ List.Forall₂ (fun g u => Stands b g u b') gs us := by
  induction gs with
  | nil =>
    intro us₀ us' b b' _ h
    cases h
    exact ⟨[], (List.append_nil _).symm, .refl b, .nil⟩
  | cons g gs ih =>
    intro us₀ us' b b' hsets h
    obtain ⟨⟨us₁, b₁⟩, hgroup, hrest⟩ := Attempt.foldlM_cons_eq_ok.1 h
    obtain ⟨u, hus, hcase⟩ := uniteGroup_eq_ok hgroup
    simp only at hus hcase
    subst hus
    have hone : b.Rerouted b₁ ∧ Stands b g u b₁ := by
      rcases hcase with ⟨rfl, rfl⟩ | hunite
      · exact ⟨.refl _, .singleton (hsets [u] List.mem_cons_self u (List.mem_singleton.2 rfl))⟩
      · exact stands_of_unite hunite
    obtain ⟨hr, hstands⟩ := hone
    have hlt : ∀ g' ∈ gs, ∀ l ∈ g', l < b.size := fun g' hg' l hl =>
      Board.lt_size_of_isSet (hsets g' (List.mem_cons_of_mem _ hg') l hl)
    obtain ⟨us, rfl, hr', hall⟩ := ih (b := b₁)
      (fun g' hg' l hl => (hr.isSet_eq (hlt g' hg' l hl)).trans (hsets g' (List.mem_cons_of_mem _ hg') l hl)) hrest
    refine ⟨u :: us, by rw [List.append_assoc, List.singleton_append], hr.trans hr', .cons (hstands.reroute hr') ?_⟩
    exact ((List.forall₂_and_left _ _).2 ⟨hlt, hall⟩).imp fun _ _ h => h.2.of_rerouted hr h.1

/-- The draft `d'` has the instructions of `d`, but for its SETs the SETs `us`, one for each of their groups. -/
structure Condensed (d d' : Draft) (us : List Label) : Prop where
  rerouted : d.board.Rerouted d'.board
  isSet : ∀ u ∈ us, (d'.board.get u).isSet = true
  spots : us.map (spotOf d'.board) = groups d.board d.sets
  list : d'.list = sorted d'.board ((d.list.filter fun l => !(d.board.get l).isSet) ++ us)

theorem condensed_of_mergeSets {d d' : Draft} {controlMask : Int} (h : (d.mergeSets controlMask).outcome = .ok d') :
    ∃ us, Condensed d d' us := by
  obtain ⟨⟨us, b⟩, hfold, hd⟩ := Attempt.bind_eq_ok.1 h
  cases hd
  have hsets : ∀ g ∈ d.gathered, ∀ l ∈ g, (d.board.get l).isSet = true := by
    intro g hg l hl
    obtain ⟨k, hk, rfl⟩ := List.mem_map.1 hg
    exact (mem_sets.1 ((mem_members hk).1 hl).1).2
  obtain ⟨us', hus, hr, hstands⟩ := stands_of_foldlM hsets hfold
  obtain rfl : us = us' := hus
  have hset : List.Forall₂ (fun u g => (b.get u).isSet = true ∧ Stands d.board g u b) us d.gathered :=
    (hstands.imp fun _ _ h => ⟨h.isSet, h⟩).flip
  have hkeys : List.Forall₂ (fun k u => k ∈ groups d.board d.sets ∧ Stands d.board (members d.board d.sets k) u b)
      (groups d.board d.sets) us := (List.forall₂_and_left _ _).2 ⟨fun _ hk => hk, List.forall₂_map_left_iff.1 hstands⟩
  have hspots : List.Forall₂ (· = ·) (us.map (spotOf b)) (groups d.board d.sets) :=
    List.forall₂_map_left_iff.2 (hkeys.imp fun _ _ h => h.2.spotOf_eq h.1).flip
  rw [List.forall₂_eq_eq_eq] at hspots
  exact ⟨us, hr, ((List.forall₂_and_left _ _).1 hset).1, hspots, rfl⟩

namespace Condensed

variable {d d' : Draft} {us : List Label} (h : Condensed d d' us) (hvalid : ∀ l ∈ d.list, l < d.board.size)

include h hvalid

theorem not_isSet_others : ∀ l ∈ d.list.filter (fun l => !(d.board.get l).isSet), (d'.board.get l).isSet = false := by
  intro l hl
  obtain ⟨hl, hset⟩ := List.mem_filter.1 hl
  rw [h.rerouted.isSet_eq (hvalid l hl)]
  exact Bool.not_eq_true' _ ▸ hset

theorem perm_sets : d'.sets.Perm us := by
  have hothers : (d.list.filter fun l => !(d.board.get l).isSet).filter (fun l => (d'.board.get l).isSet) = [] :=
    List.filter_eq_nil_iff.2 fun l hl => by rw [h.not_isSet_others hvalid l hl]; exact Bool.false_ne_true
  have hperm := (perm_sorted d'.board ((d.list.filter fun l => !(d.board.get l).isSet) ++ us)).filter
    fun l => (d'.board.get l).isSet
  rwa [← h.list, List.filter_append, hothers, List.nil_append, List.filter_eq_self.2 h.isSet] at hperm

/-- The other instructions are those of the old draft. -/
theorem perm_others : (d'.list.filter fun l => !(d'.board.get l).isSet).Perm
    (d.list.filter fun l => !(d.board.get l).isSet) := by
  have hothers : (d.list.filter fun l => !(d.board.get l).isSet).filter (fun l => !(d'.board.get l).isSet) =
      d.list.filter fun l => !(d.board.get l).isSet :=
    List.filter_eq_self.2 fun l hl => by rw [h.not_isSet_others hvalid l hl]; rfl
  have hus : us.filter (fun l => !(d'.board.get l).isSet) = [] :=
    List.filter_eq_nil_iff.2 fun u hu => by rw [h.isSet u hu]; exact Bool.false_ne_true
  have hperm := (perm_sorted d'.board ((d.list.filter fun l => !(d.board.get l).isSet) ++ us)).filter
    fun l => !(d'.board.get l).isSet
  rwa [← h.list, List.filter_append, hothers, hus, List.append_nil] at hperm

/-- The SETs have the ticks and blocks of the groups. -/
theorem perm_spots : (d'.sets.map (spotOf d'.board)).Perm (groups d.board d.sets) :=
  h.spots ▸ (h.perm_sets hvalid).map _

theorem normal (hnodup : d.list.Nodup) : d'.Normal := by
  have hspots : (us.map (spotOf d'.board)).Nodup := h.spots ▸ nodup_groups _ _
  have hmem : ∀ l ∈ d'.sets, l ∈ us := fun l hl => (h.perm_sets hvalid).mem_iff.1 hl
  have hgroup : ∀ l ∈ d'.sets, spotOf d'.board l ∈ groups d.board d.sets := fun l hl =>
    h.spots ▸ List.mem_map_of_mem (hmem l hl)
  refine ⟨h.list ▸ pairwise_sorted _ _, ?_, fun l hl m hm heq => ?_, fun l hl m hm htime hfree => ?_⟩
  · rw [h.list]
    refine Sort.nodup_sortBy.2 ((hnodup.filter _).append hspots.of_map fun l hl hu => ?_)
    exact absurd (h.isSet l hu) (by rw [h.not_isSet_others hvalid l hl]; exact Bool.false_ne_true)
  · exact List.inj_on_of_nodup_map hspots (hmem l hl) (hmem m hm) heq
  · have hl' := hgroup l hl
    rw [spotOf, hfree, htime] at hl'
    exact block_of_free_group hl' (hgroup m hm)

end Condensed

/-- A merge that succeeds reaches the normal form. The instructions other than SETs stay, and there is a SET for each
group of SETs. A second merge gives no warning and changes nothing. -/
theorem mergeSets_normalizes {d d' : Draft} {controlMask : Int} (hvalid : ∀ l ∈ d.list, l < d.board.size)
    (hnodup : d.list.Nodup) (h : (d.mergeSets controlMask).outcome = .ok d') :
    d'.Normal ∧
      (d'.list.filter fun l => !(d'.board.get l).isSet).Perm (d.list.filter fun l => !(d.board.get l).isSet) ∧
      (d'.sets.map (spotOf d'.board)).Perm (groups d.board d.sets) ∧
      d'.mergeSets controlMask = pure (d'.supersede d'.list) := by
  obtain ⟨us, hc⟩ := condensed_of_mergeSets h
  have hnormal := hc.normal hvalid hnodup
  exact ⟨hnormal, hc.perm_others hvalid, hc.perm_spots hvalid, hnormal.mergeSets_eq controlMask⟩

/-- Two free SETs at the start, one of them reached by a jump; then SETs of two blocks and a free one at one tick. -/
def crowded : Draft where
  board := ⟨#[⟨0, none, none, [], .set ⟨1, 1, 0, false⟩⟩, ⟨0, none, none, [4], .set ⟨0, 2, 0, false⟩⟩,
    ⟨3, some "dark", none, [], .set ⟨4, 4, 0, false⟩⟩, ⟨3, some "flash", none, [], .set ⟨8, 8, 0, false⟩⟩,
    ⟨3, none, none, [], .jump false 1 40 1⟩, ⟨3, none, none, [], .set ⟨0, 16, 0, false⟩⟩, ⟨6, none, none, [], .stop⟩]⟩
  list := [6, 5, 3, 2, 4, 1, 0]
  past := []

theorem crowded_normalizes : (∀ l ∈ crowded.list, l < crowded.board.size) ∧ crowded.list.Nodup ∧
    ∃ d', (crowded.mergeSets 0).outcome = .ok d' ∧ d'.list = [8, 4, 7, 2, 6] ∧ d'.Normal ∧
      d'.mergeSets 0 = pure (d'.supersede d'.list) := by
  have hvalid : ∀ l ∈ crowded.list, l < crowded.board.size := by decide
  have hlist : (crowded.mergeSets 0).outcome.toOption.map Draft.list = some [8, 4, 7, 2, 6] := by decide +kernel
  obtain ⟨d', hmerge, hlist⟩ := Option.map_eq_some_iff.1 hlist
  rw [Except.toOption_eq_some] at hmerge
  obtain ⟨hnormal, -, -, hagain⟩ := mergeSets_normalizes hvalid (by decide) hmerge
  exact ⟨hvalid, by decide, d', hmerge, hlist, hnormal, hagain⟩

end Draft

end PulseSequencer
