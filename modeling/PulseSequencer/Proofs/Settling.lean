import PulseSequencer.Proofs.Faults
import PulseSequencer.Proofs.Placement
import PulseSequencer.Proofs.Rounds

/-!
# Placement without faults

* `Block.apart_of_separate` : separated blocks follow each other;
* `TickLine.clean_placeBlocks` : no two members of blocks meet then;
* `TickLine.clean_placeFree` : an instruction on its way settles before it is given up;
* `Board.clean_place` : all of it;
* `Board.time_of_first` : the first block stays where it is.
-/

namespace PulseSequencer

namespace Block

theorem clean_separateAfter (xs : List Block) :
    ∀ (previous : Block) (b : Board), (separateAfter previous b xs).Clean := by
  induction xs with
  | nil => exact fun _ _ => Attempt.meets_pure trivial
  | cons x xs ih =>
    intro previous b
    unfold separateAfter
    split
    · exact Attempt.Clean.bind (ih x b) fun _ _ => Attempt.meets_pure trivial
    · split
      · exact Attempt.meets_fail (ne_of_beq_false rfl)
      · exact Attempt.Clean.bind (Attempt.clean_record _) fun _ _ =>
          Attempt.Clean.bind (ih _ _) fun _ _ => Attempt.meets_pure trivial

theorem clean_separate (b : Board) (xs : List Block) : (separate b xs).Clean := by
  cases xs with
  | nil => exact Attempt.meets_pure trivial
  | cons x xs => exact Attempt.Clean.bind (clean_separateAfter xs x b) fun _ _ => Attempt.meets_pure trivial

theorem apart_of_separateAfter {xs : List Block} : ∀ {previous : Block} {b b' : Board} {ys : List Block},
    (∀ x ∈ xs, x.start ≤ x.finish) → (separateAfter previous b xs).outcome = .ok (ys, b') →
    (previous :: ys).Pairwise fun x y => x.finish < y.start := by
  induction xs with
  | nil =>
    intro previous b b' ys _ h
    cases h
    exact List.pairwise_singleton _ _
  | cons x xs ih =>
    intro previous b b' ys hxs h
    have hx := hxs x List.mem_cons_self
    -- whatever comes behind a block that is behind the previous one is behind both
    have hcons : ∀ {y : Block} {zs : List Block}, previous.finish < y.start → y.start ≤ y.finish →
        (y :: zs).Pairwise (fun x y => x.finish < y.start) →
        (previous :: y :: zs).Pairwise fun x y => x.finish < y.start := by
      intro y zs hlt hle hzs
      refine List.pairwise_cons.2 ⟨List.forall_mem_cons.2 ⟨hlt, fun z hz => ?_⟩, hzs⟩
      have := (List.pairwise_cons.1 hzs).1 z hz
      omega
    unfold separateAfter at h
    split at h
    · rename_i hlt
      obtain ⟨⟨zs, c⟩, hrest, hok⟩ := Attempt.bind_eq_ok.1 h
      cases hok
      exact hcons hlt hx (ih (fun y hy => hxs y (List.mem_cons_of_mem _ hy)) hrest)
    · split at h
      · cases h
      · obtain ⟨-, -, h⟩ := Attempt.bind_eq_ok.1 h
        obtain ⟨⟨zs, c⟩, hrest, hok⟩ := Attempt.bind_eq_ok.1 h
        cases hok
        refine hcons ?_ ?_ (ih (fun y hy => hxs y (List.mem_cons_of_mem _ hy)) hrest)
        · change previous.finish < x.start + (previous.finish - x.start + 1)
          omega
        · change x.start + _ ≤ x.finish + _
          omega

theorem apart_of_separate {b b' : Board} {xs ys : List Block} (hxs : ∀ x ∈ xs, x.start ≤ x.finish)
    (h : (separate b xs).outcome = .ok (ys, b')) : ys.Pairwise fun x y => x.finish < y.start := by
  cases xs with
  | nil =>
    cases h
    exact .nil
  | cons x xs =>
    obtain ⟨⟨zs, c⟩, hrest, hok⟩ := Attempt.bind_eq_ok.1 h
    cases hok
    exact apart_of_separateAfter (fun y hy => hxs y (List.mem_cons_of_mem _ hy)) hrest

theorem start_le_finish [Collation] {b : Board} {labels : List Label} {x : Block} (hx : x ∈ collect b labels) :
    x.start ≤ x.finish := by
  simp only [collect, Sort.mem_sortBy, List.mem_map] at hx
  obtain ⟨name, -, rfl⟩ := hx
  cases hmem : (ofMembers b name (labels.filter fun l => (b.get l).block == some name)).members with
  | nil =>
    rw [members_ofMembers] at hmem
    unfold ofMembers
    rw [hmem]
  | cons l _ =>
    obtain ⟨h1, h2⟩ := bounds_ofMembers (hmem ▸ List.mem_cons_self : l ∈ _)
    exact h1.trans h2

end Block

namespace TickLine

variable {t : TickLine} {b : Board}

/-! ## Blocks -/

/-- Members at ticks of their own can be placed, and take no other ticks. -/
theorem meets_placeMembers {name : String} {ls : List Label} : ∀ {t : TickLine},
    (∀ l ∈ ls, ∀ e ∈ t.taken, e.1 ≠ b.time l) → (ls.Pairwise fun x y => b.time x ≠ b.time y) →
    Except.Meets (fun t' => ∀ e ∈ t'.taken, e ∈ t.taken ∨ ∃ l ∈ ls, e.1 = b.time l)
      (ls.foldlM (fun t l => placeMember name t b l) t) := by
  induction ls with
  | nil => exact fun _ _ => Except.meets_ok fun e he => .inl he
  | cons l ls ih =>
    intro t hfree hne
    obtain ⟨hl, hne⟩ := List.pairwise_cons.1 hne
    have hnone : t.at? (b.time l) = none := at?_eq_none.2 (hfree l List.mem_cons_self)
    have hplace : Except.Meets (fun t' => t'.taken = (b.time l, l) :: t.taken) (placeMember name t b l) := by
      unfold placeMember
      simp only
      split
      · exact Except.meets_error (ne_of_beq_false rfl)
      · rw [hnone]
        exact Except.meets_ok (taken_put_of_none hnone)
    rw [List.foldlM_cons]
    refine hplace.bind fun t₁ _ htaken => (ih (fun m hm e he => ?_) hne).mono fun t' _ hmem e he => ?_
    · rw [htaken] at he
      rcases List.mem_cons.1 he with rfl | he
      · exact hl m hm
      · exact hfree m (List.mem_cons_of_mem _ hm) e he
    · rcases hmem e he with he | ⟨m, hm, hem⟩
      · rw [htaken] at he
        rcases List.mem_cons.1 he with rfl | he
        · exact .inr ⟨l, List.mem_cons_self, rfl⟩
        · exact .inl he
      · exact .inr ⟨m, List.mem_cons_of_mem _ hm, hem⟩

theorem clean_placeBlocks {xs : List Block} : ∀ {t : TickLine},
    (∀ x ∈ xs, ∀ l ∈ x.members, ∀ e ∈ t.taken, e.1 ≠ b.time l) →
    ((xs.flatMap Block.members).Pairwise fun x y => b.time x ≠ b.time y) →
    Except.Clean (xs.foldlM (fun t x => x.members.foldlM (fun t l => placeMember x.name t b l) t) t) := by
  induction xs with
  | nil => exact fun _ _ => Except.meets_ok trivial
  | cons x xs ih =>
    intro t hfree hne
    rw [List.flatMap_cons, List.pairwise_append] at hne
    obtain ⟨hx, hxs, hcross⟩ := hne
    rw [List.foldlM_cons]
    refine (meets_placeMembers (hfree x List.mem_cons_self) hx).bind fun t₁ _ hmem => ih (fun y hy l hl e he => ?_) hxs
    rcases hmem e he with he | ⟨m, hm, hem⟩
    · exact hfree y (List.mem_cons_of_mem _ hy) l hl e he
    · rw [hem]
      exact hcross m hm l (List.mem_flatMap.2 ⟨y, hy, hl⟩)

/-! ## Free-standing instructions -/

/-- An instruction goes back until it has left a block, and to one side then. -/
structure Traveller.Heading (v : Traveller) : Prop where
  unit : v.direction = -1 ∨ v.direction = 1
  back : v.leaving = false → v.direction = -1

theorem Traveller.Heading.leave {v : Traveller} {x : Block} : (leave v x).Heading := by
  unfold TickLine.leave
  split
  · exact ⟨.inr rfl, nofun⟩
  · exact ⟨.inl rfl, nofun⟩

/-- Placing an instruction ends with room for it or without, and is not given up. -/
theorem clean_placeFree (acc : TickLine × Board) (l : Label) : (placeFree acc l).Clean := by
  obtain ⟨n, hn, r, hr, hend⟩ := @exists_rounds l ⟨l, acc.2.time l, -1, false⟩ acc.1 acc.2 rfl rfl
  rw [show placeFree acc l = r from hr.placeFree_eq hn]
  rcases hend with ⟨_, _, _, -, -, hok⟩ | ⟨-, f, hfail, hkind⟩
  · exact Attempt.meets_of_ok hok trivial
  · refine Attempt.meets_of_error hfail ?_
    rw [Failure.Foreign, hkind]
    exact ne_of_beq_false rfl

end TickLine

/-! ## The whole -/

namespace Board

variable {b : Board} {length : Int} {ls : List Label}

/-- Placement ends in no fault of its own, if a block has one instruction at a tick. -/
theorem clean_place [Collation] (hvalid : ∀ l ∈ ls, l < b.size) (hnodup : ls.Nodup)
    (hstaggered : ∀ x ∈ ls, ∀ y ∈ ls, ∀ n, (b.get x).block = some n → (b.get y).block = some n →
      b.time x = b.time y → x = y) : (b.place length ls).Clean := by
  refine Attempt.Clean.bind (Block.clean_separate b _) fun ⟨ys, b₁⟩ hsep => ?_
  simp only
  split
  · exact Attempt.meets_of_error rfl trivial
  refine Attempt.Clean.bind (Attempt.meets_ofExcept (TickLine.clean_placeBlocks (fun _ _ _ _ e he => ?_) ?_))
    fun t _ => ?_
  · cases he
  · -- within a block the ticks differ, and the blocks follow each other
    obtain ⟨shift, hs⟩ := Block.shifted_of_separate (Block.apart_collect hvalid hnodup) hsep
    have happart := Block.apart_of_separate (fun x hx => Block.start_le_finish hx) hsep
    change (ys.flatMap Block.members).Pairwise _
    rw [hs.blocks] at happart ⊢
    have hmem : ∀ x ∈ Block.collect b ls, ∀ l ∈ x.members, l ∈ ls ∧ (b.get l).block = some x.name := fun x hx l hl =>
      (Block.mem_members_iff hx).1 hl
    rw [List.flatMap_map, List.pairwise_flatMap]
    refine ⟨fun x hx => ?_, (List.pairwise_map.1 happart).imp_of_mem fun {x y} hx hy hlt l hl m hm => ?_⟩
    · have hdistinct := (Block.apart_collect hvalid hnodup).nodup x hx
      refine hdistinct.imp_of_mem fun {l m} hl hm hne htime => hne ?_
      rw [hs.time x hx l hl, hs.time x hx m hm] at htime
      exact hstaggered l (hmem x hx l hl).1 m (hmem x hx m hm).1 x.name (hmem x hx l hl).2 (hmem x hx m hm).2 (by omega)
    · have h1 := ((Block.spans_of_mem_collect hx).bounds l hl).2
      have h2 := ((Block.spans_of_mem_collect hy).bounds m hm).1
      rw [hs.time x hx l hl, hs.time y hy m hm]
      have : x.finish + shift x.name < y.start + shift y.name := hlt
      omega
  · exact Attempt.Clean.bind
      (Attempt.meets_foldlM (P := fun _ => True) (fun l _ acc _ => TickLine.clean_placeFree acc l) trivial)
      fun _ _ => Attempt.meets_pure trivial

/-- The first block stays where it is. -/
theorem time_of_first [Collation] {b' : Board} {ls' : List Label} (hvalid : ∀ l ∈ ls, l < b.size) (hnodup : ls.Nodup)
    (h : (b.place length ls).outcome = .ok (ls', b')) {x : Block} {rest : List Block}
    (hfirst : Block.collect b ls = x :: rest) : ∀ l ∈ x.members, b'.time l = b.time l := by
  obtain ⟨-, ys, b₁, hsep, hret, -⟩ := placed_of_place hvalid hnodup h
  have happart := Block.apart_collect hvalid hnodup
  rw [hfirst] at hsep happart
  obtain ⟨⟨zs, c⟩, hrest, hok⟩ := Attempt.bind_eq_ok.1 hsep
  cases hok
  obtain ⟨shift, hs⟩ := Block.shifted_of_separateAfter (happart.tail rfl) hrest
  intro l hl
  have hblock : (b.get l).block ≠ none := by
    have hx : x ∈ Block.collect b ls := hfirst ▸ List.mem_cons_self
    rw [Block.mem_members_iff hx] at hl
    rw [hl.2]
    simp
  have hsame : b₁.get l = b.get l := hs.frame l fun y hy hly => (List.pairwise_cons.1 happart.disjoint).1 y hy hl hly
  rw [hret.blocked l (by rwa [hsame]), Board.time, Board.time, hsame]

/-- From one instruction of a block to another there are only instructions of the block. -/
theorem convex_of_place [Collation] {b' : Board} {ls' : List Label} (hvalid : ∀ l ∈ ls, l < b.size) (hnodup : ls.Nodup)
    (h : (b.place length ls).outcome = .ok (ls', b')) {x y z : Label} {n : String} (hx : x ∈ ls) (hy : y ∈ ls)
    (hz : z ∈ ls) (hxn : (b.get x).block = some n) (hzn : (b.get z).block = some n) (hxy : b'.time x ≤ b'.time y)
    (hyz : b'.time y ≤ b'.time z) : (b.get y).block = some n := by
  obtain ⟨-, ys, b₁, hsep, hret, hfree⟩ := placed_of_place hvalid hnodup h
  have happart := Block.apart_of_separate (fun _ => Block.start_le_finish) hsep
  obtain ⟨shift, hs⟩ := Block.shifted_of_separate (Block.apart_collect hvalid hnodup) hsep
  -- an instruction of a block is inside the range of its block
  have hin : ∀ l ∈ ls, ∀ m, (b.get l).block = some m → ∃ u ∈ ys, u.name = m ∧ u.start ≤ b'.time l ∧
      b'.time l ≤ u.finish ∧ ∀ l' ∈ ls, (b.get l').block = some m → u.start ≤ b'.time l' ∧ b'.time l' ≤ u.finish := by
    intro l hl m hm
    obtain ⟨u, hu, rfl, -⟩ := Block.exists_of_block hl hm
    have hbounds : ∀ l' ∈ ls, (b.get l').block = some u.name → u.start + shift u.name ≤ b'.time l' ∧
        b'.time l' ≤ u.finish + shift u.name := fun l' hl' hm' => by
      have hspans := Block.spans_of_mem_collect hu
      have hmem : l' ∈ u.members := hspans.members.mem_iff.2 (List.mem_filter.2 ⟨hl', by rw [hm', beq_self_eq_true]⟩)
      have hbound := hspans.bounds l' hmem
      rw [hret.blocked l' (by rw [hs.retimed.block_eq, hm']; simp), hs.time u hu l' hmem]
      omega
    exact ⟨u.moveBy (shift u.name), by rw [hs.blocks]; exact List.mem_map_of_mem hu, rfl, (hbounds l hl hm).1,
      (hbounds l hl hm).2, hbounds⟩
  obtain ⟨u, hu, hun, hux, -, hall⟩ := hin x hx n hxn
  have huz := (hall z hz hzn).2
  cases hyn : (b.get y).block with
  | none => exact absurd ⟨by omega, by omega⟩ (hfree y hy hyn u hu)
  | some m =>
    obtain ⟨v, hv, hvm, hvy, hyv, -⟩ := hin y hy m hyn
    rcases eq_or_of_pairwise happart hu hv with huv | hlt | hlt
    · rw [← hun, ← hvm, huv]
    · omega
    · omega

end Board

theorem Draft.convex_of_place [Collation] {d d' : Draft} {length : Int} (hd : d.Linked)
    (h : (d.place length).outcome = .ok d') {x y z : Label} {n : String} (hx : x ∈ d.list) (hy : y ∈ d.list)
    (hz : z ∈ d.list) (hxn : (d.board.get x).block = some n) (hzn : (d.board.get z).block = some n)
    (hxy : d'.board.time x ≤ d'.board.time y) (hyz : d'.board.time y ≤ d'.board.time z) :
    (d.board.get y).block = some n := by
  obtain ⟨⟨ls, b⟩, hp, hok⟩ := Attempt.bind_eq_ok.1 h
  cases hok
  exact Board.convex_of_place hd.valid hd.nodup hp hx hy hz hxn hzn hxy hyz

end PulseSequencer
