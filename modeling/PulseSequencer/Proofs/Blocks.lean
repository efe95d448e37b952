import PulseSequencer.Proofs.Attempt
import PulseSequencer.Proofs.Groups
import PulseSequencer.Proofs.Links
import PulseSequencer.Schedule.Block

/-!
# Blocks that move as a whole

* `Block.Spans`, `Block.spans_of_mem_collect` : the members of a block and the ticks they take;
* `Block.before_iff`, `Block.sorted_collect` : blocks are listed by their first tick, then by their last, then by name;
* `Block.Shifted`, `Block.shifted_of_separate` : separating blocks moves all members of a block by the same ticks.
-/

namespace PulseSequencer.Block

/-- The block has the labels of its name, and their ticks. -/
structure Spans (b : Board) (labels : List Label) (x : Block) : Prop where
  members : x.members.Perm (labels.filter fun l => (b.get l).block == some x.name)
  bounds : ∀ l ∈ x.members, x.start ≤ b.time l ∧ b.time l ≤ x.finish

theorem le_getLastD {f : Label → Int} : ∀ {x : Label} {xs : List Label},
    ((x :: xs).Pairwise fun y z => f y ≤ f z) → ∀ y ∈ x :: xs, f y ≤ f (xs.getLastD x) := by
  intro x xs
  induction xs generalizing x with
  | nil => simp
  | cons z zs ih =>
    intro h y hy
    obtain ⟨hx, hzs⟩ := List.pairwise_cons.1 h
    rw [List.getLastD_cons]
    rcases List.mem_cons.1 hy with rfl | hy
    · exact (hx z List.mem_cons_self).trans (ih hzs z List.mem_cons_self)
    · exact ih hzs y hy

theorem name_ofMembers (b : Board) (name : String) (ls : List Label) : (ofMembers b name ls).name = name := by
  unfold ofMembers
  simp only
  split <;> rfl

theorem members_ofMembers (b : Board) (name : String) (ls : List Label) :
    (ofMembers b name ls).members = Sort.sortBy (fun x y => decide (b.time x ≤ b.time y)) ls := by
  unfold ofMembers
  simp only
  split
  · rename_i h
    exact h.symm
  · rfl

theorem bounds_ofMembers {b : Board} {name : String} {ls : List Label} {l : Label}
    (hl : l ∈ (ofMembers b name ls).members) :
    (ofMembers b name ls).start ≤ b.time l ∧ b.time l ≤ (ofMembers b name ls).finish := by
  have hsort : (Sort.sortBy (fun x y => decide (b.time x ≤ b.time y)) ls).Pairwise fun x y => b.time x ≤ b.time y := by
    refine (Sort.pairwise_sortBy ?_ ?_ ls).imp fun h => by simpa using h
    · intro x y
      simp only [decide_eq_true_eq]
      omega
    · intro x y z
      simp only [decide_eq_true_eq]
      omega
  rw [members_ofMembers] at hl
  unfold ofMembers
  simp only
  split
  · rename_i h
    rw [h] at hl
    cases hl
  · rename_i first rest h
    rw [h] at hl hsort
    refine ⟨?_, le_getLastD hsort l hl⟩
    rcases List.mem_cons.1 hl with rfl | hl
    · exact le_refl _
    · exact (List.pairwise_cons.1 hsort).1 l hl

theorem spans_of_mem_collect [Collation] {b : Board} {labels : List Label} {x : Block} (hx : x ∈ collect b labels) :
    x.Spans b labels := by
  simp only [collect, Sort.mem_sortBy, List.mem_map] at hx
  obtain ⟨name, -, rfl⟩ := hx
  refine ⟨?_, fun l hl => bounds_ofMembers hl⟩
  rw [name_ofMembers, members_ofMembers]
  exact Sort.perm_sortBy _ _

theorem mem_members_iff [Collation] {b : Board} {ls : List Label} {x : Block} (hx : x ∈ collect b ls) {l : Label} :
    l ∈ x.members ↔ l ∈ ls ∧ (b.get l).block = some x.name := by
  rw [(spans_of_mem_collect hx).members.mem_iff, List.mem_filter, beq_iff_eq]

theorem nodup_collect [Collation] (b : Board) (labels : List Label) : ((collect b labels).map Block.name).Nodup := by
  have hperm := (Sort.perm_sortBy before ((Draft.distinct (labels.filterMap fun l => (b.get l).block)).map fun name =>
    ofMembers b name (labels.filter fun l => (b.get l).block == some name))).map Block.name
  refine hperm.nodup_iff.2 ?_
  rw [List.map_map, show Block.name ∘ (fun name => ofMembers b name _) = id from
    funext fun name => name_ofMembers b name _, List.map_id]
  exact Draft.nodup_distinct _

theorem exists_of_block [Collation] {b : Board} {labels : List Label} {l : Label} {name : String} (hl : l ∈ labels)
    (hblock : (b.get l).block = some name) : ∃ x ∈ collect b labels, x.name = name ∧ l ∈ x.members := by
  refine ⟨ofMembers b name (labels.filter fun l => (b.get l).block == some name), ?_, name_ofMembers _ _ _, ?_⟩
  · simp only [collect, Sort.mem_sortBy, List.mem_map, Draft.mem_distinct, List.mem_filterMap]
    exact ⟨name, ⟨l, hl, hblock⟩, rfl⟩
  · rw [members_ofMembers, Sort.mem_sortBy]
    simp [hl, hblock]

/-- A block begins and ends at members of it. -/
theorem exists_bounds [Collation] {b : Board} {labels : List Label} {x : Block} (hx : x ∈ collect b labels) :
    (∃ l ∈ x.members, b.time l = x.start) ∧ ∃ l ∈ x.members, b.time l = x.finish := by
  unfold collect at hx
  rw [Sort.mem_sortBy, List.mem_map] at hx
  obtain ⟨name, hname, rfl⟩ := hx
  rw [Draft.mem_distinct, List.mem_filterMap] at hname
  obtain ⟨l, hl, hblock⟩ := hname
  have hne : Sort.sortBy (fun x y => decide (b.time x ≤ b.time y))
      (labels.filter fun l => (b.get l).block == some name) ≠ [] := by
    have hmem : l ∈ labels.filter fun l => (b.get l).block == some name :=
      List.mem_filter.2 ⟨hl, by rw [hblock]; exact beq_self_eq_true _⟩
    exact List.ne_nil_of_mem (Sort.mem_sortBy.2 hmem)
  unfold ofMembers
  simp only
  split
  · rename_i hnil
    exact absurd hnil hne
  · rename_i first rest hcons
    rw [hcons]
    exact ⟨⟨first, List.mem_cons_self, rfl⟩, _, List.getLastD_mem_cons, rfl⟩

/-! ## The order of blocks -/

section Order

variable [Collation] {x y z : Block}

theorem isLE_of_not_isLE {m n : String} (h : (Collation.compare m n).isLE = false) :
    (Collation.compare n m).isLE = true := by
  have hswap : Collation.compare n m = (Collation.compare m n).swap := Std.OrientedCmp.eq_swap
  rw [hswap]
  cases hc : Collation.compare m n <;> rw [hc] at h <;> first | rfl | cases h

theorem before_iff : before x y = true ↔ x.start < y.start ∨ x.start = y.start ∧
    (x.finish < y.finish ∨ x.finish = y.finish ∧ (Collation.compare x.name y.name).isLE = true) := by
  simp [before]

theorem before_total (x y : Block) : before x y = true ∨ before y x = true := by
  have hname : (Collation.compare x.name y.name).isLE = true ∨ (Collation.compare y.name x.name).isLE = true := by
    cases hname : (Collation.compare x.name y.name).isLE with
    | true => exact .inl rfl
    | false => exact .inr (isLE_of_not_isLE hname)
  rw [before_iff, before_iff]
  grind

theorem before_trans (hxy : before x y = true) (hyz : before y z = true) : before x z = true := by
  have hname : (Collation.compare x.name y.name).isLE = true → (Collation.compare y.name z.name).isLE = true →
      (Collation.compare x.name z.name).isLE = true := Std.TransCmp.isLE_trans
  rw [before_iff] at *
  grind

theorem sorted_collect (b : Board) (labels : List Label) :
    (collect b labels).Pairwise fun x y => before x y = true :=
  Sort.pairwise_sortBy before_total (fun _ _ _ => before_trans) _

end Order

/-! ## Separation -/

/-- The members of every block have moved by the ticks that `shift` gives for its name. The last block stays. -/
structure Shifted (shift : String → Int) (b : Board) (xs : List Block) (b' : Board) (ys : List Block) : Prop where
  ending : shift endName = 0
  retimed : b.Retimed b'
  blocks : ys = xs.map fun x => x.moveBy (shift x.name)
  time : ∀ x ∈ xs, ∀ l ∈ x.members, b'.time l = b.time l + shift x.name
  frame : ∀ l, (∀ x ∈ xs, l ∉ x.members) → b'.get l = b.get l

theorem moveBy_zero (x : Block) : x.moveBy 0 = x := by simp [moveBy]

theorem retimed_moveMembers (offset : Int) (ls : List Label) (b : Board) : b.Retimed (moveMembers offset b ls) := by
  induction ls generalizing b with
  | nil => exact .refl b
  | cons l ls ih => exact (Board.Retimed.modify_time b l fun i => i.time + offset).trans (ih _)

theorem get_moveMembers {offset : Int} {ls : List Label} (hnodup : ls.Nodup) (b : Board) (l : Label) :
    (moveMembers offset b ls).get l =
      if l ∈ ls ∧ l < b.size then { b.get l with time := (b.get l).time + offset } else b.get l :=
  Board.get_foldl_modify (.inl hnodup) b l

theorem moveMembers_zero {ls : List Label} (hnodup : ls.Nodup) (b : Board) : moveMembers 0 b ls = b := by
  refine Board.ext_get (retimed_moveMembers 0 ls b).size_eq fun l => ?_
  rw [get_moveMembers hnodup]
  split <;> simp

/-- Blocks whose members are on the board, each in one block only. -/
structure Apart (b : Board) (xs : List Block) : Prop where
  names : (xs.map Block.name).Nodup
  disjoint : xs.Pairwise fun x y => List.Disjoint x.members y.members
  nodup : ∀ x ∈ xs, x.members.Nodup
  valid : ∀ x ∈ xs, ∀ l ∈ x.members, l < b.size

theorem Apart.tail {b b' : Board} {x : Block} {xs : List Block} (h : Apart b (x :: xs)) (hsize : b'.size = b.size) :
    Apart b' xs where
  names := (List.nodup_cons.1 h.names).2
  disjoint := h.disjoint.of_cons
  nodup y hy := h.nodup y (List.mem_cons_of_mem _ hy)
  valid y hy l hl := by
    rw [hsize]
    exact h.valid y (List.mem_cons_of_mem _ hy) l hl

/-- One more block in front, moved before the others. -/
theorem Shifted.cons {shift : String → Int} {b b' : Board} {x : Block} {xs ys : List Block} {offset : Int}
    (ha : Apart b (x :: xs)) (hoffset : x.name = endName → offset = 0)
    (h : Shifted shift (moveMembers offset b x.members) xs b' ys) :
    ∃ shift', Shifted shift' b (x :: xs) b' (x.moveBy offset :: ys) := by
  have hne : ∀ y ∈ xs, y.name ≠ x.name := fun y hy heq =>
    (List.nodup_cons.1 ha.names).1 (List.mem_map.2 ⟨y, hy, heq⟩)
  have hdisj := (List.pairwise_cons.1 ha.disjoint).1
  have hnodup := ha.nodup x List.mem_cons_self
  refine ⟨fun n => if n = x.name then offset else shift n, ?_, (retimed_moveMembers offset x.members b).trans h.retimed,
    ?_, fun y hy l hl => ?_, fun l hl => ?_⟩
  · split
    · rename_i hname
      exact hoffset hname.symm
    · exact h.ending
  · rw [List.map_cons, if_pos rfl, h.blocks]
    exact congrArg _ (List.map_congr_left fun y hy => by rw [if_neg (hne y hy)])
  · rcases List.mem_cons.1 hy with rfl | hy
    · rw [if_pos rfl, Board.time, h.frame l fun z hz hlz => hdisj z hz hl hlz, get_moveMembers hnodup,
        if_pos ⟨hl, ha.valid y List.mem_cons_self l hl⟩]
      rfl
    · rw [if_neg (hne y hy), h.time y hy l hl, Board.time, get_moveMembers hnodup, if_neg fun h => hdisj y hy h.1 hl]
      rfl
  · rw [h.frame l fun y hy => hl y (List.mem_cons_of_mem _ hy), get_moveMembers hnodup,
      if_neg fun h => hl x List.mem_cons_self h.1]

theorem shifted_of_separateAfter {xs : List Block} : ∀ {previous : Block} {b b' : Board} {ys : List Block},
    Apart b xs → (separateAfter previous b xs).outcome = .ok (ys, b') → ∃ shift, Shifted shift b xs b' ys := by
  induction xs with
  | nil =>
    intro previous b b' ys _ h
    cases h
    exact ⟨fun _ => 0, rfl, .refl b, rfl, by simp, fun _ _ => rfl⟩
  | cons x xs ih =>
    intro previous b b' ys ha h
    unfold separateAfter at h
    split at h
    · obtain ⟨⟨zs, c⟩, hrest, hok⟩ := Attempt.bind_eq_ok.1 h
      cases hok
      rw [← moveMembers_zero (ha.nodup x List.mem_cons_self) b] at hrest
      obtain ⟨shift, hs⟩ := ih (ha.tail (retimed_moveMembers 0 x.members b).size_eq) hrest
      have := hs.cons ha fun _ => rfl
      rwa [moveBy_zero] at this
    · split at h
      · cases h
      · rename_i hname
        obtain ⟨-, -, h⟩ := Attempt.bind_eq_ok.1 h
        obtain ⟨⟨zs, c⟩, hrest, hok⟩ := Attempt.bind_eq_ok.1 h
        cases hok
        obtain ⟨shift, hs⟩ := ih (ha.tail (retimed_moveMembers _ x.members b).size_eq) hrest
        exact hs.cons ha fun h => absurd h hname

theorem apart_collect [Collation] {b : Board} {labels : List Label} (hvalid : ∀ l ∈ labels, l < b.size)
    (hnodup : labels.Nodup) : Apart b (collect b labels) := by
  refine ⟨nodup_collect b labels, ?_, fun x hx => ?_, fun x hx l hl => hvalid l ((mem_members_iff hx).1 hl).1⟩
  · refine (List.pairwise_map.1 (nodup_collect b labels)).imp_of_mem fun {x y} hx hy hne l hlx hly => hne ?_
    exact Option.some.inj (((mem_members_iff hx).1 hlx).2.symm.trans ((mem_members_iff hy).1 hly).2)
  · exact (spans_of_mem_collect hx).members.nodup_iff.2 (hnodup.filter _)

theorem shifted_of_separate {b b' : Board} {xs ys : List Block} (ha : Apart b xs)
    (h : (separate b xs).outcome = .ok (ys, b')) : ∃ shift, Shifted shift b xs b' ys := by
  unfold separate at h
  split at h
  · cases h
    exact ⟨fun _ => 0, rfl, .refl b, rfl, by simp, fun _ _ => rfl⟩
  · rename_i first rest
    obtain ⟨⟨zs, c⟩, hrest, hok⟩ := Attempt.bind_eq_ok.1 h
    cases hok
    rw [← moveMembers_zero (ha.nodup first List.mem_cons_self) b] at hrest
    obtain ⟨shift, hs⟩ := shifted_of_separateAfter (ha.tail (retimed_moveMembers 0 first.members b).size_eq) hrest
    have := hs.cons ha fun _ => rfl
    rwa [moveBy_zero] at this

end PulseSequencer.Block
