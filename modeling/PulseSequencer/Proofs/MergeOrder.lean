import PulseSequencer.Proofs.Mirror
import PulseSequencer.Proofs.Reordering

/-!
# The order of SETs before their union

SETs without jumps that agree where they meet give the same united SETs in every order.

* `Board.join_right_comm`, `Instruction.union_perm` : the union of the SETs of a tick does not depend on their order;
* `Draft.Loose` : drafts whose SETs can be listed in any order;
* `Draft.Loose.cells_mergeSets` : the cells that a merge leaves behind, in terms of the cells before it;
* `Draft.Loose.cells_mergeSets_perm` : the same cells in another order become the same list;
* `Draft.relabel`, `Draft.mirrored_of_cells` : drafts with the same cells are the same under other labels.
-/

namespace PulseSequencer

/-! ## Drives -/

/-- Drives have the same values where both drive. -/
def Drive.Agree (d e : Drive) : Prop :=
  ∀ i, Bits.bit d.mask i = true → Bits.bit e.mask i = true → Bits.bit d.value i = Bits.bit e.value i

namespace Board

theorem join_right_comm {d e : Drive} (hd : d.Inside) (he : e.Inside) (h : d.Agree e) (z : Drive) :
    join (join z d) e = join (join z e) d := by
  unfold join
  simp only [Drive.mk.injEq]
  refine ⟨Bits.or_eq_or fun i => ?_, Bits.or_eq_or fun i => ?_, Bits.or_eq_or fun i => ?_, ?_⟩
  · have hdi := hd i
    have hei := he i
    have hi := h i
    simp only [Bits.bit_or, Bits.bit_without]
    revert hdi hei hi
    cases Bits.bit d.value i <;> cases Bits.bit d.mask i <;> cases Bits.bit e.value i <;> cases Bits.bit e.mask i <;>
      simp
  · simp only [Bits.bit_or]
    rw [Bool.or_assoc, Bool.or_comm (Bits.bit d.mask i), ← Bool.or_assoc]
  · simp only [Bits.bit_or]
    rw [Bool.or_assoc, Bool.or_comm (Bits.bit d.polarity i), ← Bool.or_assoc]
  · rw [Bool.or_assoc, Bool.or_comm d.marker, ← Bool.or_assoc]

end Board

/-! ## The SETs of a tick -/

namespace Instruction

/-- The SET that the SETs of a tick become. -/
def union : List Instruction → Instruction
  | [i] => i
  | is => ⟨(is.headD default).time, (is.filterMap block).head?, none, [],
    .set ((is.map drive).foldl Board.join ⟨0, 0, 0, false⟩)⟩

/-- Labels matter to jumps only. -/
theorem mirror_eq_self {φ : Label → Label} {e : Int} {i : Instruction} (htarget : i.target? = none)
    (hreached : i.reachedBy = []) (hend : i.action = .stop → i.time = e) : i.mirror φ e = i := by
  have htime : (if i.action = .stop then e else i.time) = i.time := by
    split
    · rename_i hstop
      exact (hend hstop).symm
    · rfl
  rw [mirror, retarget_of_target?_eq_none htarget, htime, hreached, List.map_nil, ← hreached]

/-- SETs that can be united in either order. -/
structure Agrees (a c : Instruction) : Prop where
  block : a.block = none ∨ c.block = none
  drive : a.drive.Agree c.drive

theorem Agrees.symm {a c : Instruction} (h : a.Agrees c) : c.Agrees a :=
  ⟨h.block.symm, fun i hc ha => (h.drive i ha hc).symm⟩

/-- At most one of the SETs is in a block. -/
theorem exists_filterMap_block {is : List Instruction} (h : is.Pairwise Agrees) :
    ∃ r : Option String, is.filterMap block = r.toList := by
  induction h with
  | nil => exact ⟨none, rfl⟩
  | @cons a is ha _ ih =>
    rw [List.filterMap_cons]
    split
    · exact ih
    · rename_i name hname
      have hnone : is.filterMap block = [] := by
        rw [List.filterMap_eq_nil_iff]
        intro c hc
        exact (ha c hc).block.resolve_left (by rw [hname]; exact Option.some_ne_none _)
      exact ⟨some name, by rw [hnone]; rfl⟩

theorem filterMap_block_perm {is is' : List Instruction} (hperm : is'.Perm is) (hagree : is.Pairwise Agrees) :
    is'.filterMap block = is.filterMap block := by
  obtain ⟨r, hr⟩ := exists_filterMap_block hagree
  have hblocks := hperm.filterMap block
  rw [hr] at hblocks ⊢
  cases r with
  | none => exact List.perm_nil.1 hblocks
  | some name => exact List.perm_singleton.1 hblocks

theorem union_perm {is is' : List Instruction} (hperm : is'.Perm is) (hagree : is.Pairwise Agrees)
    (hinside : ∀ i ∈ is, i.drive.Inside) (htime : ∀ a ∈ is, ∀ c ∈ is, a.time = c.time) : union is' = union is := by
  have hcomm : ∀ d ∈ is'.map drive, ∀ e ∈ is'.map drive, ∀ z,
      Board.join (Board.join z d) e = Board.join (Board.join z e) d := by
    intro d hd e he z
    obtain ⟨a, ha, rfl⟩ := List.mem_map.1 hd
    obtain ⟨c, hc, rfl⟩ := List.mem_map.1 he
    rw [hperm.mem_iff] at ha hc
    by_cases hac : a = c
    · rw [hac]
    · have hsymm : Std.Symm Agrees := ⟨fun _ _ h => h.symm⟩
      exact Board.join_right_comm (hinside a ha) (hinside c hc) (hagree.forall ha hc hac).drive z
  have hdrive : (is'.map drive).foldl Board.join ⟨0, 0, 0, false⟩ = (is.map drive).foldl Board.join ⟨0, 0, 0, false⟩ :=
    (hperm.map drive).foldl_eq' hcomm _
  have hblock := filterMap_block_perm hperm hagree
  match is, is' with
  | [], _ => rw [List.perm_nil.1 hperm]
  | [a], _ => rw [List.perm_singleton.1 hperm]
  | _ :: _ :: _, [] => exact absurd hperm.length_eq (by simp)
  | _ :: _ :: _, [c] => exact absurd hperm.length_eq (by simp)
  | a :: a' :: is, c :: c' :: is' =>
    have htimes : c.time = a.time := htime c (hperm.mem_iff.1 List.mem_cons_self) a List.mem_cons_self
    simp only [union, List.headD_cons, htimes, hblock, hdrive]

end Instruction

namespace Board

/-- SETs that no jump leads to are united by adding their union. -/
theorem eq_add_of_unite {b b' : Board} {m : Int} {ls : List Label} {u : Label}
    (h : (b.unite m ls).outcome = .ok (u, b')) (hfree : ∀ l ∈ ls, (b.get l).reachedBy = []) (hne : ∀ l, ls ≠ [l]) :
    u = b.size ∧ b' = (b.add (.union (ls.map b.get))).2 := by
  obtain ⟨first, block, d, hfirst, hblock, hd, -, rfl, rfl⟩ := unite_eq_ok.1 h
  have hreached : (ls.flatMap fun l => (b.get l).reachedBy) = [] := List.flatMap_eq_nil_iff.2 hfree
  have hblocks : (ls.filterMap fun l => (b.get l).block) = block.toList := by simpa using (commonBlock_eq_ok.1 hblock).2
  refine ⟨rfl, ?_⟩
  rw [hreached, List.foldl_nil, foldl_join_of_ok hd]
  match ls with
  | [] => cases hfirst
  | [l] => exact absurd rfl (hne l)
  | l :: l' :: ls =>
    cases hfirst
    have hhead : ((b.get first :: b.get l' :: ls.map b.get).filterMap Instruction.block).head? = block := by
      rw [← List.map_cons, ← List.map_cons, List.filterMap_map]
      change ((first :: l' :: ls).filterMap fun l => (b.get l).block).head? = block
      rw [hblocks]
      cases block <;> rfl
    simp only [List.map_cons, Instruction.union, hhead, List.map_map]
    rfl

end Board

namespace Draft

/-- The groups are united one by one. -/
theorem map_get_of_uniteGroups {m : Int} {gs : List (List Label)} : ∀ {us us₁ : List Label} {b b₁ : Board},
    (∀ g ∈ gs, ∀ l ∈ g, l < b.size ∧ (b.get l).reachedBy = []) → (∀ u ∈ us, u < b.size) →
    (gs.foldlM (uniteGroup m) (us, b)).outcome = .ok (us₁, b₁) →
    b.Extends b₁ ∧ us₁.map b₁.get = us.map b.get ++ gs.map fun g => .union (g.map b.get) := by
  induction gs with
  | nil =>
    intro us us₁ b b₁ _ _ h
    cases h
    exact ⟨.refl _, by simp⟩
  | cons g gs ih =>
    intro us us₁ b b₁ hgs hus h
    obtain ⟨⟨us₂, b₂⟩, hstep, hrest⟩ := Attempt.foldlM_cons_eq_ok.1 h
    have hg := hgs g List.mem_cons_self
    -- one more SET, which is the union of the group
    have hone : b.Extends b₂ ∧ ∃ u, us₂ = us ++ [u] ∧ u < b₂.size ∧ b₂.get u = .union (g.map b.get) := by
      by_cases hsingle : ∃ l, g = [l]
      · obtain ⟨l, rfl⟩ := hsingle
        cases hstep
        exact ⟨.refl _, l, rfl, (hg l List.mem_cons_self).1, rfl⟩
      · rw [uniteGroup_of_ne fun l hl => hsingle ⟨l, hl⟩] at hstep
        obtain ⟨⟨u, b₂⟩, hu, hstep⟩ := Attempt.bind_eq_ok.1 hstep
        cases hstep
        obtain ⟨rfl, rfl⟩ := Board.eq_add_of_unite hu (fun l hl => (hg l hl).2) fun l hl => hsingle ⟨l, hl⟩
        exact ⟨.add _ _, _, rfl, by rw [Board.size_add]; exact Nat.lt_succ_self _, Board.get_add_size _ _⟩
    obtain ⟨hext, u, rfl, hu, hcell⟩ := hone
    have hlater : ∀ g' ∈ gs, ∀ l ∈ g', l < b.size ∧ (b.get l).reachedBy = [] := fun g' hg' =>
      hgs g' (List.mem_cons_of_mem _ hg')
    have hgs₂ : ∀ g' ∈ gs, ∀ l ∈ g', l < b₂.size ∧ (b₂.get l).reachedBy = [] := fun g' hg' l hl => by
      obtain ⟨hlt, hfree⟩ := hlater g' hg' l hl
      exact ⟨hlt.trans_le hext.size_le, by rw [hext.get_eq l hlt, hfree]⟩
    have hus₂ : ∀ x ∈ us ++ [u], x < b₂.size := by
      intro x hx
      rcases List.mem_append.1 hx with hx | hx
      · exact (hus x hx).trans_le hext.size_le
      · rw [List.mem_singleton.1 hx]
        exact hu
    obtain ⟨hext', hmap⟩ := ih hgs₂ hus₂ hrest
    have hunions : (gs.map fun g => Instruction.union (g.map b₂.get)) = gs.map fun g => .union (g.map b.get) :=
      List.map_congr_left fun g' hg' =>
        congrArg _ (List.map_congr_left fun l hl => hext.get_eq l (hlater g' hg' l hl).1)
    refine ⟨hext.trans hext', ?_⟩
    rw [hmap, hunions, List.map_append, List.map_cons, List.map_nil, hcell, List.map_cons, List.append_assoc,
      List.singleton_append, List.map_congr_left fun x hx => hext.get_eq x (hus x hx)]

/-! ## Loose drafts -/

/-- The instructions of the list. -/
def cells (d : Draft) : List Instruction := d.list.map d.board.get

/-- Without jumps, nothing is reached by one. -/
theorem Linked.reachedBy_eq_nil {d : Draft} (hd : d.Linked) (htarget : ∀ l ∈ d.list, (d.board.get l).target? = none)
    {l : Label} (hl : l ∈ d.list) : (d.board.get l).reachedBy = [] := by
  refine List.eq_nil_iff_forall_not_mem.2 fun m hm => ?_
  obtain ⟨hm, htm⟩ := hd.reached l hl m hm
  rw [htarget m hm] at htm
  cases htm

/-- A draft without jumps, whose SETs are in one block or in none and can be united in any order. -/
structure Loose (d : Draft) : Prop where
  linked : d.Linked
  free : ∀ l ∈ d.list, (d.board.get l).reachedBy = []
  inside : d.SetsInside
  block : ∃ name, ∀ l ∈ d.sets, (d.board.get l).block = none ∨ (d.board.get l).block = some name
  agree : d.sets.Pairwise fun x y => d.board.time x = d.board.time y → (d.board.get x).Agrees (d.board.get y)
  other : ∃ z, ∀ l ∈ d.list, (d.board.get l).isSet = false → l = z

namespace Loose

variable {d d' d₁ : Draft}

/-- The SETs of a tick are one group. -/
theorem keyOf_eq (hd : d.Loose) {l : Label} (hl : l ∈ d.sets) :
    keyOf d.board d.sets l = ⟨d.board.time l, hostAt d.board d.sets (d.board.time l)⟩ := by
  obtain ⟨name, hname⟩ := hd.block
  rw [keyOf, Group.mk.injEq]
  refine ⟨rfl, ?_⟩
  rcases hname l hl with hb | hb
  · rw [hb, Option.none_or]
  · cases hhost : hostAt d.board d.sets (d.board.time l) with
    | none => exact absurd (hb.symm.trans (hostAt_eq_none.1 hhost l hl rfl)) (Option.some_ne_none _)
    | some other =>
      obtain ⟨x, hx, -, hother⟩ := exists_of_hostAt hhost
      rcases hname x hx with h | h
      · rw [h] at hother
        cases hother
      · rw [hb, ← h, hother]
        rfl

theorem perm_members (hd : d.Loose) {g : Group} (hg : g ∈ groups d.board d.sets) :
    (members d.board d.sets g).Perm (d.sets.filter fun l => d.board.time l == g.time) := by
  have hnodup : d.sets.Nodup := hd.linked.nodup.filter _
  refine (List.perm_ext_iff_of_nodup (nodup_members hnodup g) (hnodup.filter _)).2 fun l => ?_
  obtain ⟨x, hx, rfl⟩ := mem_groups.1 hg
  rw [mem_members hg, List.mem_filter, beq_iff_eq]
  refine and_congr_right fun hl => ?_
  rw [hd.keyOf_eq hl, hd.keyOf_eq hx, Group.mk.injEq]
  refine ⟨And.left, fun h => ⟨h, by rw [h]⟩⟩

/-- The SET of a tick after the merge. -/
def unionAt (cells : List Instruction) (time : Int) : Instruction :=
  .union (cells.filter fun i => i.isSet && i.time == time)

theorem filter_cells (d : Draft) (time : Int) : (d.cells.filter fun i => i.isSet && i.time == time) =
    (d.sets.filter fun l => d.board.time l == time).map d.board.get := by
  rw [cells, List.filter_map, sets, List.filter_filter]
  congr 1
  exact List.filter_congr fun l _ => Bool.and_comm _ _

/-- The SETs of a tick can be united in any order. -/
theorem union_eq (hd : d.Loose) {time : Int} {is : List Instruction}
    (hperm : is.Perm (d.cells.filter fun i => i.isSet && i.time == time)) : .union is = unionAt d.cells time := by
  rw [unionAt]
  rw [filter_cells] at hperm ⊢
  refine Instruction.union_perm hperm ?_ (fun i hi => ?_) fun a ha c hc => ?_
  · refine List.pairwise_map.2 ((hd.agree.filter _).imp_of_mem fun {x y} hx hy h => ?_)
    exact h ((beq_iff_eq.1 (List.mem_filter.1 hx).2).trans (beq_iff_eq.1 (List.mem_filter.1 hy).2).symm)
  · obtain ⟨l, hl, rfl⟩ := List.mem_map.1 hi
    exact hd.inside l (List.mem_filter.1 hl).1
  · obtain ⟨x, hx, rfl⟩ := List.mem_map.1 ha
    obtain ⟨y, hy, rfl⟩ := List.mem_map.1 hc
    exact (beq_iff_eq.1 (List.mem_filter.1 hx).2).trans (beq_iff_eq.1 (List.mem_filter.1 hy).2).symm

theorem mem_times {time : Int} :
    time ∈ (groups d.board d.sets).map Group.time ↔ ∃ i ∈ d.cells, i.isSet = true ∧ i.time = time := by
  constructor
  · intro h
    obtain ⟨g, hg, rfl⟩ := List.mem_map.1 h
    obtain ⟨l, hl, rfl⟩ := mem_groups.1 hg
    obtain ⟨hl, hset⟩ := mem_sets.1 hl
    exact ⟨_, List.mem_map.2 ⟨l, hl, rfl⟩, hset, rfl⟩
  · rintro ⟨i, hi, hset, rfl⟩
    obtain ⟨l, hl, rfl⟩ := List.mem_map.1 hi
    exact List.mem_map.2 ⟨_, keyOf_mem_groups (mem_sets.2 ⟨hl, hset⟩), rfl⟩

theorem nodup_times (hd : d.Loose) : ((groups d.board d.sets).map Group.time).Nodup := by
  refine (nodup_groups d.board d.sets).map_on fun g hg g' hg' htime => ?_
  obtain ⟨l, hl, rfl⟩ := mem_groups.1 hg
  obtain ⟨l', hl', rfl⟩ := mem_groups.1 hg'
  rw [hd.keyOf_eq hl, hd.keyOf_eq hl'] at htime ⊢
  rw [show d.board.time l = d.board.time l' from htime]

/-- The instructions after the merge, not sorted yet. -/
def unions (d : Draft) : List Instruction :=
  (d.cells.filter fun i => !i.isSet) ++ ((groups d.board d.sets).map Group.time).map (unionAt d.cells)

/-- What a merge makes of the instructions. -/
theorem cells_mergeSets (hd : d.Loose) {m : Int} (h : (d.mergeSets m).outcome = .ok d₁) :
    d₁.cells = Sort.sortBy Instruction.before (unions d) := by
  obtain ⟨⟨us, b⟩, hfold, h⟩ := Attempt.bind_eq_ok.1 h
  cases h
  have hmem : ∀ g ∈ d.gathered, ∀ l ∈ g, l ∈ d.list := by
    intro g hg l hl
    obtain ⟨key, hkey, rfl⟩ := List.mem_map.1 hg
    exact (mem_sets.1 ((mem_members hkey).1 hl).1).1
  obtain ⟨hext, hus⟩ := map_get_of_uniteGroups
    (fun g hg l hl => ⟨hd.linked.valid l (hmem g hg l hl), hd.free l (hmem g hg l hl)⟩) (by simp) hfold
  have hunions : (us.map b.get) = ((groups d.board d.sets).map Group.time).map (unionAt d.cells) := by
    rw [hus, List.map_nil, List.nil_append, gathered, List.map_map, List.map_map]
    refine List.map_congr_left fun g hg => hd.union_eq ?_
    rw [filter_cells]
    exact (hd.perm_members hg).map _
  have hothers : (d.list.filter fun l => !(d.board.get l).isSet).map b.get = d.cells.filter fun i => !i.isSet := by
    rw [cells, List.filter_map]
    exact List.map_congr_left fun l hl => hext.get_eq l (hd.linked.valid l (List.mem_filter.1 hl).1)
  have hsort : ∀ ls, Sort.sortBy Instruction.before (ls.map b.get) = (sorted b ls).map b.get := fun ls =>
    Sort.sortBy_map fun x _ y _ => rfl
  change (sorted b _).map b.get = _
  rw [← hsort, List.map_append, hunions, hothers]
  rfl

theorem time_unionAt {time : Int} (h : ∃ i ∈ d.cells, i.isSet = true ∧ i.time = time) :
    (unionAt d.cells time).time = time ∧ (unionAt d.cells time).isSet = true := by
  have hall : ∀ i ∈ d.cells.filter fun i => i.isSet && i.time == time, i.isSet = true ∧ i.time = time := by
    intro i hi
    simpa using (List.mem_filter.1 hi).2
  obtain ⟨i, hi, hset, htime⟩ := h
  have hmem : i ∈ d.cells.filter fun i => i.isSet && i.time == time := List.mem_filter.2 ⟨hi, by simp [hset, htime]⟩
  unfold unionAt
  generalize (d.cells.filter fun i => i.isSet && i.time == time) = is at hall hmem ⊢
  match is with
  | [] => cases hmem
  | [a] => exact (hall a List.mem_cons_self).symm
  | a :: c :: is => exact ⟨(hall a List.mem_cons_self).2, rfl⟩

/-- Ticks and opcodes tell the instructions after the merge apart. -/
theorem eq_of_before (hd : d.Loose) {a c : Instruction} (ha : a ∈ unions d) (hc : c ∈ unions d)
    (hac : a.before c = true) (hca : c.before a = true) : a = c := by
  have htime : a.time = c.time ∧ a.opcode = c.opcode := by
    rw [Instruction.before_iff] at hac hca
    omega
  obtain ⟨z, hz⟩ := hd.other
  have hother : ∀ {i}, i ∈ d.cells.filter (fun i => !i.isSet) → i = d.board.get z ∧ i.opcode ≠ 2 := by
    intro i hi
    obtain ⟨hi, hset⟩ := List.mem_filter.1 hi
    obtain ⟨l, hl, rfl⟩ := List.mem_map.1 hi
    rw [Bool.not_eq_true'] at hset
    refine ⟨by rw [hz l hl hset], fun hop => ?_⟩
    unfold Instruction.isSet at hset
    unfold Instruction.opcode Action.opcode at hop
    split at hop <;> simp_all
  have hunion : ∀ {i}, i ∈ ((groups d.board d.sets).map Group.time).map (unionAt d.cells) →
      i = unionAt d.cells i.time ∧ i.opcode = 2 := by
    intro i hi
    obtain ⟨time, ht, rfl⟩ := List.mem_map.1 hi
    obtain ⟨h1, h2⟩ := time_unionAt (mem_times.1 ht)
    exact ⟨by rw [h1], Instruction.opcode_of_isSet h2⟩
  rcases List.mem_append.1 ha with ha | ha <;> rcases List.mem_append.1 hc with hc | hc
  · rw [(hother ha).1, (hother hc).1]
  · exact absurd (htime.2.trans (hunion hc).2) (hother ha).2
  · exact absurd (htime.2.symm.trans (hunion ha).2) (hother hc).2
  · rw [(hunion ha).1, (hunion hc).1, htime.1]

/-- The same instructions in another order are merged in the same way. -/
theorem cells_mergeSets_perm (hd : d.Loose) (hd' : d'.Loose) (hperm : d'.cells.Perm d.cells) {m : Int} {d₁' : Draft}
    (h : (d.mergeSets m).outcome = .ok d₁) (h' : (d'.mergeSets m).outcome = .ok d₁') : d₁'.cells = d₁.cells := by
  have htimes : ((groups d'.board d'.sets).map Group.time).Perm ((groups d.board d.sets).map Group.time) := by
    refine (List.perm_ext_iff_of_nodup hd'.nodup_times hd.nodup_times).2 fun time => ?_
    rw [mem_times, mem_times]
    simp only [hperm.mem_iff]
  have hunions : (unions d').Perm (unions d) := by
    refine (hperm.filter _).append ?_
    rw [show unionAt d'.cells = unionAt d.cells from funext fun time => hd.union_eq (hperm.filter _)]
    exact htimes.map _
  rw [hd.cells_mergeSets h, hd'.cells_mergeSets h']
  exact Sort.sortBy_perm Instruction.before_total (fun _ _ _ => Instruction.before_trans) hunions
    fun a ha c hc => hd.eq_of_before ha hc

/-- SETs of a tick that agree can be united. -/
theorem exists_mergeSets (hd : d.Loose) (m : Int) : ∃ d₁, (d.mergeSets m).outcome = .ok d₁ := by
  refine hd.linked.exists_mergeSets hd.inside fun g hg => ?_
  obtain ⟨key, hkey, rfl⟩ := List.mem_map.1 hg
  have hsets : ∀ {l}, l ∈ members d.board d.sets key → l ∈ d.sets ∧ d.board.time l = key.time := fun {l} hl => by
    obtain ⟨hset, hkey⟩ := (mem_members hkey).1 hl
    exact ⟨hset, congrArg Group.time hkey⟩
  have hnodup := nodup_members (b := d.board) (hd.linked.nodup.filter _ : d.sets.Nodup) key
  have hagree : ∀ {x y}, x ∈ members d.board d.sets key → y ∈ members d.board d.sets key → x ≠ y →
      (d.board.get x).Agrees (d.board.get y) := by
    intro x y hx hy hne
    have hsymm : Std.Symm fun x y => d.board.time x = d.board.time y → (d.board.get x).Agrees (d.board.get y) :=
      ⟨fun _ _ h heq => (h heq.symm).symm⟩
    exact hd.agree.forall (hsets hx).1 (hsets hy).1 hne ((hsets hx).2.trans (hsets hy).2.symm)
  refine ⟨?_, fun l hl => hd.inside l (hsets hl).1, fun x hx y hy => (hsets hx).2.trans (hsets hy).2.symm, ?_,
    fun i _ x hx y hy hxi hyi => ?_⟩
  · obtain ⟨l, hl, rfl⟩ := mem_groups.1 hkey
    exact List.ne_nil_of_mem (mem_members_keyOf hl)
  · have hpairwise : ((members d.board d.sets key).map d.board.get).Pairwise Instruction.Agrees :=
      List.pairwise_map.2 (hnodup.imp_of_mem fun hx hy hne => hagree hx hy hne)
    obtain ⟨r, hr⟩ := Instruction.exists_filterMap_block hpairwise
    exact ⟨r, by rw [← hr, List.filterMap_map]; rfl⟩
  · by_cases hxy : x = y
    · rw [hxy]
    · exact (hagree hx hy hxy).drive i hxi hyi

end Loose

/-! ## Labels -/

/-- The label in `d'` that has the place of `l` in `d`; new labels stay in order. -/
def relabel (d d' : Draft) (l : Label) : Label :=
  if l < d.board.size then d'.list.getD (d.list.idxOf l) 0 else d'.board.size + (l - d.board.size)

section Relabel

variable {d d' : Draft}

theorem relabel_size_add (d d' : Draft) (i : Nat) : relabel d d' (d.board.size + i) = d'.board.size + i := by
  rw [relabel, if_neg (Nat.not_lt.2 (Nat.le_add_right _ i)), Nat.add_sub_cancel_left]

variable (hd : d.Linked) (hd' : d'.Linked) (hlength : d'.list.length = d.list.length)

include hd hlength

theorem relabel_getElem {i : Nat} (hi : i < d.list.length) : relabel d d' d.list[i] = d'.list[i] := by
  rw [relabel, if_pos (hd.valid _ (List.getElem_mem hi)), hd.nodup.idxOf_getElem i hi]
  exact List.getD_eq_getElem _ _ _

theorem map_relabel : d'.list = d.list.map (relabel d d') := by
  refine List.ext_getElem (by rw [List.length_map, hlength]) fun i h1 h2 => ?_
  rw [List.getElem_map, relabel_getElem hd hlength]

include hd'

theorem injOn_relabel : Set.InjOn (relabel d d') {l | l ∈ d.list ∨ d.board.size ≤ l} := by
  -- the labels of the list stay below the new ones
  have hold : ∀ l ∈ d.list, relabel d d' l < d'.board.size := fun l hl => by
    refine hd'.valid _ ?_
    rw [map_relabel hd hlength]
    exact List.mem_map.2 ⟨l, hl, rfl⟩
  have hapart : ∀ l ∈ d.list, ∀ i, relabel d d' l ≠ relabel d d' (d.board.size + i) := by
    intro l hl i heq
    have hlt := hold l hl
    rw [heq, relabel_size_add] at hlt
    exact absurd hlt (Nat.not_lt.2 (Nat.le_add_right _ _))
  rintro l (hl | hl) m (hm | hm) heq
  · have hnodup : (d.list.map (relabel d d')).Nodup := map_relabel hd hlength ▸ hd'.nodup
    exact List.inj_on_of_nodup_map hnodup hl hm heq
  · obtain ⟨i, rfl⟩ := Nat.exists_eq_add_of_le hm
    exact absurd heq (hapart l hl i)
  · obtain ⟨i, rfl⟩ := Nat.exists_eq_add_of_le hl
    exact absurd heq.symm (hapart m hm i)
  · obtain ⟨i, rfl⟩ := Nat.exists_eq_add_of_le hl
    obtain ⟨j, rfl⟩ := Nat.exists_eq_add_of_le hm
    rw [relabel_size_add, relabel_size_add] at heq
    rw [Nat.add_left_cancel heq]

end Relabel

/-- Drafts with the same instructions, and without jumps, are the same under other labels. -/
theorem mirrored_of_cells {d d' : Draft} {e : Int} (hd : d.Linked) (hd' : d'.Linked) (hcells : d'.cells = d.cells)
    (htarget : ∀ l ∈ d.list, (d.board.get l).target? = none)
    (hend : ∀ l ∈ d.list, (d.board.get l).action = .stop → d.board.time l = e) :
    d.Mirrored (relabel d d') e {l | l ∈ d.list ∨ d.board.size ≤ l} d' := by
  have hlength : d'.list.length = d.list.length := by simpa [cells] using congrArg List.length hcells
  have hget : ∀ {i} (hi : i < d.list.length), d'.board.get d'.list[i] = d.board.get d.list[i] := by
    intro i hi
    have hcell : d'.cells[i]? = d.cells[i]? := by rw [hcells]
    simpa [cells, hi, hlength] using hcell
  have hreached : ∀ l ∈ d.list, (d.board.get l).reachedBy = [] := fun l hl => hd.reachedBy_eq_nil htarget hl
  refine ⟨⟨fun i => ⟨.inr (Nat.le_add_right _ _), relabel_size_add d d' i⟩, injOn_relabel hd hd' hlength, ?_, ?_⟩,
    map_relabel hd hlength, fun l hl => .inl hl⟩
  · rintro l (hl | hl) m hm
    · rw [hreached l hl] at hm
      cases hm
    · rw [Board.get_of_size_le hl] at hm
      cases hm
  · rintro l (hl | hl)
    · rw [Instruction.mirror_eq_self (htarget l hl) (hreached l hl) (hend l hl)]
      obtain ⟨i, hi, rfl⟩ := List.getElem_of_mem hl
      rw [relabel_getElem hd hlength hi, hget hi]
    · obtain ⟨i, rfl⟩ := Nat.exists_eq_add_of_le hl
      rw [relabel_size_add, Board.get_of_size_le hl, Board.get_of_size_le (Nat.le_add_right _ _)]
      rfl

end Draft

end PulseSequencer
