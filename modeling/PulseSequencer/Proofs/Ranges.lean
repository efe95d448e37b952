import PulseSequencer.Proofs.Placement

/-!
# Blocks stay whole

* `Block.Follows`, `Block.follows_of_separate` : separated blocks come one after the other, none earlier than it was;
* `Board.Within`, `Board.Within.bounds` : the ticks from the first to the last member of a block, and where they are;
* `Board.Precedes`, `Board.Precedes.exists_blocks` : the order of blocks by their ticks before placement;
* `Board.place_keeps_blocks` : what placement does to a list of instructions.
-/

namespace PulseSequencer

namespace Block

/-- Blocks `ys` are the blocks `xs`, each moved to later ticks if at all, and come one after the other. -/
structure Follows (xs ys : List Block) : Prop where
  moved : List.Forall₂ (fun x y => ∃ offset, 0 ≤ offset ∧ y = x.moveBy offset) xs ys
  chain : ys.IsChain fun x y => x.finish < y.start

theorem follows_of_separateAfter {xs : List Block} : ∀ {previous : Block} {b b' : Board} {ys : List Block},
    (separateAfter previous b xs).outcome = .ok (ys, b') →
      Follows xs ys ∧ (previous :: ys).IsChain fun x y => x.finish < y.start := by
  induction xs with
  | nil =>
    intro previous b b' ys h
    cases h
    exact ⟨⟨.nil, .nil⟩, .singleton _⟩
  | cons x xs ih =>
    intro previous b b' ys h
    unfold separateAfter at h
    split at h
    · rename_i hlt
      obtain ⟨⟨zs, c⟩, hrest, hok⟩ := Attempt.bind_eq_ok.1 h
      cases hok
      obtain ⟨hfollows, hchain⟩ := ih hrest
      exact ⟨⟨.cons ⟨0, le_rfl, (moveBy_zero x).symm⟩ hfollows.moved, hchain⟩, .cons_cons hlt hchain⟩
    · rename_i hle
      split at h
      · cases h
      · obtain ⟨-, -, h⟩ := Attempt.bind_eq_ok.1 h
        obtain ⟨⟨zs, c⟩, hrest, hok⟩ := Attempt.bind_eq_ok.1 h
        cases hok
        obtain ⟨hfollows, hchain⟩ := ih hrest
        refine ⟨⟨.cons ⟨previous.finish - x.start + 1, by omega, rfl⟩ hfollows.moved, hchain⟩, .cons_cons ?_ hchain⟩
        change previous.finish < x.start + (previous.finish - x.start + 1)
        omega

/-- Separation leaves the first block alone and moves every other behind the one before it. -/
theorem follows_of_separate {b b' : Board} {xs ys : List Block} (h : (separate b xs).outcome = .ok (ys, b')) :
    Follows xs ys := by
  unfold separate at h
  split at h
  · cases h
    exact ⟨.nil, .nil⟩
  · rename_i first rest
    obtain ⟨⟨zs, c⟩, hrest, hok⟩ := Attempt.bind_eq_ok.1 h
    cases hok
    obtain ⟨hfollows, hchain⟩ := follows_of_separateAfter hrest
    exact ⟨.cons ⟨0, le_rfl, (moveBy_zero first).symm⟩ hfollows.moved, hchain⟩

/-- Blocks that take some ticks each and come one after the other are all in order. -/
theorem Follows.pairwise {xs ys : List Block} (h : Follows xs ys) (hle : ∀ y ∈ ys, y.start ≤ y.finish) :
    ys.Pairwise fun x y => x.finish < y.start := by
  -- what is strictly behind a block is behind all blocks in front of that one, as every block ends after it starts
  have hchain : ys.IsChain fun x y => x.finish < y.start ∧ y.start ≤ y.finish :=
    h.chain.imp_of_mem_imp fun x y _ hy hlt => ⟨hlt, hle y hy⟩
  have htrans : IsTrans Block fun x y => x.finish < y.start ∧ y.start ≤ y.finish := ⟨fun x y z hxy hyz => by omega⟩
  exact (List.isChain_iff_pairwise.1 hchain).imp And.left

theorem exists_member [Collation] {b : Board} {ls : List Label} {x : Block} (hx : x ∈ collect b ls) :
    ∃ l ∈ ls, (b.get l).block = some x.name := by
  simp only [collect, Sort.mem_sortBy, List.mem_map, Draft.mem_distinct, List.mem_filterMap] at hx
  obtain ⟨name, ⟨l, hl, hname⟩, rfl⟩ := hx
  exact ⟨l, hl, by rw [name_ofMembers, hname]⟩

/-- Separated blocks have not moved to earlier ticks. -/
theorem Shifted.nonneg {shift : String → Int} {b b' : Board} {xs ys : List Block} (hs : Shifted shift b xs b' ys)
    (hf : Follows xs ys) {x : Block} (hx : x ∈ xs) : 0 ≤ shift x.name := by
  have hmoved := hf.moved
  rw [hs.blocks, List.forall₂_map_right_iff, List.forall₂_same] at hmoved
  obtain ⟨offset, hoffset, heq⟩ := hmoved x hx
  have hstart : x.start + shift x.name = x.start + offset := congrArg Block.start heq
  omega

end Block

namespace Board

/-- A tick from the first to the last member of a block. -/
def Within (b : Board) (ls : List Label) (name : String) (tick : Int) : Prop :=
  ∃ k ∈ ls, ∃ l ∈ ls, (b.get k).block = some name ∧ (b.get l).block = some name ∧ b.time k ≤ tick ∧ tick ≤ b.time l

/-- The ticks of the first and of the last member of a block. -/
structure Extent (b : Board) (ls : List Label) (name : String) (start finish : Int) : Prop where
  starts : ∃ l ∈ ls, (b.get l).block = some name ∧ b.time l = start
  ends : ∃ l ∈ ls, (b.get l).block = some name ∧ b.time l = finish
  bounds : ∀ l ∈ ls, (b.get l).block = some name → start ≤ b.time l ∧ b.time l ≤ finish

/-- A block starts earlier than another one; or starts with it and ends earlier; or takes the same ticks and has a name
that comes earlier. -/
def Precedes [Collation] (b : Board) (ls : List Label) (m n : String) : Prop :=
  ∃ start finish start' finish', b.Extent ls m start finish ∧ b.Extent ls n start' finish' ∧
    (start < start' ∨ start = start' ∧ (finish < finish' ∨ finish = finish' ∧ Collation.compare m n = .lt))

/-- All ticks of a block are in front of those of another one. -/
def InFront (b : Board) (ls : List Label) (m n : String) : Prop := ∀ s t, b.Within ls m s → b.Within ls n t → s < t

/-- The labels `ls` of `b` stand in the order `ls'` on ticks of their own in `[0, length)`, with the times of `b'`.
Blocks have moved to later ticks as a whole, the last one not at all, and are apart from each other, in the order they
had, and from everything else. -/
structure KeepsBlocks [Collation] (b : Board) (length : Int) (ls ls' : List Label) (b' : Board) : Prop where
  retimed : b.Retimed b'
  perm : ls'.Perm ls
  increasing : ls'.Pairwise fun x y => b'.time x < b'.time y
  range : ∀ l ∈ ls', 0 ≤ b'.time l ∧ b'.time l < length
  shift : ∃ shift : String → Int, shift Block.endName = 0 ∧
    ∀ l ∈ ls, ∀ name, (b.get l).block = some name → 0 ≤ shift name ∧ b'.time l = b.time l + shift name
  apart : ∀ m n, m ≠ n → b'.InFront ls m n ∨ b'.InFront ls n m
  order : ∀ m n, b.Precedes ls m n → b'.InFront ls m n
  free : ∀ l ∈ ls, (b.get l).block = none → ∀ name, ¬ b'.Within ls name (b'.time l)

/-- A block without members is in front of all others, and behind them. -/
theorem inFront_of_absent {b : Board} {ls : List Label} {m n : String} (h : ¬ ∃ l ∈ ls, (b.get l).block = some m) :
    b.InFront ls m n ∧ b.InFront ls n m := by
  have hempty : ∀ t, ¬ b.Within ls m t := by
    rintro t ⟨k, hk, -, -, hname, -⟩
    exact h ⟨k, hk, hname⟩
  exact ⟨fun s _ hs _ => absurd hs (hempty s), fun _ t _ ht => absurd ht (hempty t)⟩

theorem Extent.unique {b : Board} {ls : List Label} {name : String} {start finish start' finish' : Int}
    (h : b.Extent ls name start finish) (h' : b.Extent ls name start' finish') : start = start' ∧ finish = finish' := by
  obtain ⟨⟨k, hk, hkname, rfl⟩, ⟨l, hl, hlname, rfl⟩, hbounds⟩ := h
  obtain ⟨⟨k', hk', hkname', rfl⟩, ⟨l', hl', hlname', rfl⟩, hbounds'⟩ := h'
  have := hbounds k' hk' hkname'
  have := hbounds l' hl' hlname'
  have := hbounds' k hk hkname
  have := hbounds' l hl hlname
  omega

theorem extent_of_mem_collect [Collation] {b : Board} {ls : List Label} {x : Block} (hx : x ∈ Block.collect b ls) :
    b.Extent ls x.name x.start x.finish := by
  obtain ⟨⟨k, hk, hstart⟩, l, hl, hfinish⟩ := Block.exists_bounds hx
  obtain ⟨hk, hkname⟩ := (Block.mem_members_iff hx).1 hk
  obtain ⟨hl, hlname⟩ := (Block.mem_members_iff hx).1 hl
  refine ⟨⟨k, hk, hkname, hstart⟩, ⟨l, hl, hlname, hfinish⟩, fun m hm hmname => ?_⟩
  exact (Block.spans_of_mem_collect hx).bounds m ((Block.mem_members_iff hx).2 ⟨hm, hmname⟩)

/-- A block that precedes another one is listed in front of it. -/
theorem Precedes.exists_blocks [Collation] {b : Board} {ls : List Label} {m n : String} (h : b.Precedes ls m n) :
    ∃ x ∈ Block.collect b ls, ∃ y ∈ Block.collect b ls, x.name = m ∧ y.name = n ∧ Block.before y x = false := by
  obtain ⟨start, finish, start', finish', hm, hn, horder⟩ := h
  obtain ⟨k, hk, hkname, -⟩ := hm.starts
  obtain ⟨l, hl, hlname, -⟩ := hn.starts
  obtain ⟨x, hx, rfl, -⟩ := Block.exists_of_block hk hkname
  obtain ⟨y, hy, rfl, -⟩ := Block.exists_of_block hl hlname
  obtain ⟨rfl, rfl⟩ := hm.unique (extent_of_mem_collect hx)
  obtain ⟨rfl, rfl⟩ := hn.unique (extent_of_mem_collect hy)
  refine ⟨x, hx, y, hy, rfl, rfl, ?_⟩
  rw [← Bool.not_eq_true, Block.before_iff]
  have hname : Collation.compare x.name y.name = .lt → ¬ (Collation.compare y.name x.name).isLE = true := by
    intro hlt
    rw [Std.OrientedCmp.gt_iff_lt.2 hlt]
    exact Bool.false_ne_true
  grind

section Shifted

variable [Collation] {shift : String → Int} {b b₁ b' : Board} {ls : List Label} {ys : List Block} {x : Block}
  (hs : Block.Shifted shift b (Block.collect b ls) b₁ ys) (hfree : TickLine.FreeRetimed b₁ b')
  (hx : x ∈ Block.collect b ls)

include hs hfree hx

/-- The members of a block stay where separation has put them. -/
theorem time_of_shifted {l : Label} (hl : l ∈ ls) (hname : (b.get l).block = some x.name) :
    b'.time l = b.time l + shift x.name := by
  have hblocked : (b₁.get l).block ≠ none := by
    rw [hs.retimed.block_eq, hname]
    exact Option.some_ne_none _
  rw [hfree.blocked l hblocked, hs.time x hx l ((Block.mem_members_iff hx).2 ⟨hl, hname⟩)]

theorem bounds_of_shifted {l : Label} (hl : l ∈ ls) (hname : (b.get l).block = some x.name) :
    (x.moveBy (shift x.name)).start ≤ b'.time l ∧ b'.time l ≤ (x.moveBy (shift x.name)).finish := by
  have htime := time_of_shifted hs hfree hx hl hname
  have hbounds := (Block.spans_of_mem_collect hx).bounds l ((Block.mem_members_iff hx).2 ⟨hl, hname⟩)
  change x.start + shift x.name ≤ _ ∧ _ ≤ x.finish + shift x.name
  omega

/-- The range of a block is that of the separated one. -/
theorem Within.bounds (hretimed : b.Retimed b') {tick : Int} (h : b'.Within ls x.name tick) :
    (x.moveBy (shift x.name)).start ≤ tick ∧ tick ≤ (x.moveBy (shift x.name)).finish := by
  obtain ⟨k, hk, l, hl, hkname, hlname, hkt, hlt⟩ := h
  rw [hretimed.block_eq] at hkname hlname
  exact ⟨(bounds_of_shifted hs hfree hx hk hkname).1.trans hkt, hlt.trans (bounds_of_shifted hs hfree hx hl hlname).2⟩

omit hx

/-- Blocks are in front of each other as they are listed. -/
theorem inFront_of_shifted (hfollows : Block.Follows (Block.collect b ls) ys) (hretimed : b.Retimed b') :
    (Block.collect b ls).Pairwise fun x y => b'.InFront ls x.name y.name := by
  have hle : ∀ y ∈ ys, y.start ≤ y.finish := fun y hy => by
    rw [hs.blocks] at hy
    obtain ⟨x, hx, rfl⟩ := List.mem_map.1 hy
    obtain ⟨l, hl, hname⟩ := Block.exists_member hx
    obtain ⟨hstart, hfinish⟩ := bounds_of_shifted hs hfree hx hl hname
    exact hstart.trans hfinish
  have horder := hfollows.pairwise hle
  rw [hs.blocks, List.pairwise_map] at horder
  refine horder.imp_of_mem fun {x y} hx hy hlt s t hs' ht => ?_
  exact (hs'.bounds hs hfree hx hretimed).2.trans_lt (hlt.trans_le (ht.bounds hs hfree hy hretimed).1)

/-- Of two blocks one is in front of the other, and that one comes first in their order. -/
theorem listed_of_shifted (hfollows : Block.Follows (Block.collect b ls) ys) (hretimed : b.Retimed b') {x y : Block}
    (hx : x ∈ Block.collect b ls) (hy : y ∈ Block.collect b ls) (hne : x ≠ y) :
    (Block.before x y = true ∧ b'.InFront ls x.name y.name) ∨
    (Block.before y x = true ∧ b'.InFront ls y.name x.name) := by
  have hlisted := (Block.sorted_collect b ls).and (inFront_of_shifted hs hfree hfollows hretimed)
  exact (eq_or_of_pairwise hlisted hx hy).resolve_left hne

theorem inFront_or_inFront (hfollows : Block.Follows (Block.collect b ls) ys) (hretimed : b.Retimed b') {m n : String}
    (hne : m ≠ n) : b'.InFront ls m n ∨ b'.InFront ls n m := by
  by_cases hm : ∃ k ∈ ls, (b'.get k).block = some m
  · by_cases hn : ∃ l ∈ ls, (b'.get l).block = some n
    · obtain ⟨k, hk, hkname⟩ := hm
      obtain ⟨l, hl, hlname⟩ := hn
      rw [hretimed.block_eq] at hkname hlname
      obtain ⟨x, hx, rfl, -⟩ := Block.exists_of_block hk hkname
      obtain ⟨y, hy, rfl, -⟩ := Block.exists_of_block hl hlname
      have hxy : x ≠ y := fun h => hne (congrArg Block.name h)
      exact (listed_of_shifted hs hfree hfollows hretimed hx hy hxy).imp And.right And.right
    · exact .inl (inFront_of_absent hn).2
  · exact .inl (inFront_of_absent hm).1

theorem Precedes.inFront {m n : String} (h : b.Precedes ls m n) (hfollows : Block.Follows (Block.collect b ls) ys)
    (hretimed : b.Retimed b') : b'.InFront ls m n := by
  obtain ⟨x, hx, y, hy, rfl, rfl, hbefore⟩ := h.exists_blocks
  have hxy : x ≠ y := by
    rintro rfl
    exact absurd ((Block.before_total x x).elim id id) (Bool.not_eq_true _ ▸ hbefore)
  rcases listed_of_shifted hs hfree hfollows hretimed hx hy hxy with ⟨-, hfront⟩ | ⟨htrue, -⟩
  · exact hfront
  · cases hbefore.symm.trans htrue

end Shifted

/-- Placement loses nothing and keeps blocks whole. -/
theorem place_keeps_blocks [Collation] {b b' : Board} {length : Int} {ls ls' : List Label}
    (hvalid : ∀ l ∈ ls, l < b.size) (hnodup : ls.Nodup) (h : (b.place length ls).outcome = .ok (ls', b')) :
    b.KeepsBlocks length ls ls' b' := by
  obtain ⟨hplaced, ys, b₁, hsep, hfree, hout⟩ := placed_of_place hvalid hnodup h
  have hfollows := Block.follows_of_separate hsep
  obtain ⟨shift, hshift⟩ := Block.shifted_of_separate (Block.apart_collect hvalid hnodup) hsep
  refine ⟨hplaced.retimed, hplaced.perm, hplaced.increasing, hplaced.range,
    ⟨shift, hshift.ending, fun l hl name hname => ?_⟩,
    fun m n hne => inFront_or_inFront hshift hfree hfollows hplaced.retimed hne,
    fun m n hprecedes => hprecedes.inFront hshift hfree hfollows hplaced.retimed, fun l hl hnone name hin => ?_⟩
  · obtain ⟨x, hx, rfl, -⟩ := Block.exists_of_block hl hname
    exact ⟨hshift.nonneg hfollows hx, time_of_shifted hshift hfree hx hl hname⟩
  · obtain ⟨k, hk, -, -, hname, -⟩ := id hin
    rw [hplaced.retimed.block_eq] at hname
    obtain ⟨x, hx, rfl, -⟩ := Block.exists_of_block hk hname
    refine hout l hl hnone (x.moveBy (shift x.name)) ?_ (hin.bounds hshift hfree hx hplaced.retimed)
    rw [hshift.blocks]
    exact List.mem_map.2 ⟨x, hx, rfl⟩

/-- Two blocks that overlap, a SET in the way of the second one, and the END. -/
def crowded : Board := ⟨#[
  ⟨4, some "a", none, [], .set ⟨1, 1, 0, false⟩⟩, ⟨6, some "a", none, [], .set ⟨0, 1, 0, false⟩⟩,
  ⟨5, some "b", none, [], .set ⟨2, 2, 0, false⟩⟩, ⟨7, none, none, [], .set ⟨4, 4, 0, false⟩⟩,
  ⟨9, some Block.endName, none, [], .stop⟩]⟩

theorem crowded_keeps_blocks : ∃ ls b, (crowded.place 10 [0, 1, 2, 3, 4]).outcome = .ok (ls, b) ∧
    ls = [0, 1, 2, 3, 4] ∧ ls.map b.time = [4, 6, 7, 8, 9] ∧ crowded.KeepsBlocks 10 [0, 1, 2, 3, 4] ls b := by
  have hresult : (crowded.place 10 [0, 1, 2, 3, 4]).outcome.map (fun r => (r.1, r.1.map r.2.time)) =
      .ok ([0, 1, 2, 3, 4], [4, 6, 7, 8, 9]) := by decide +kernel
  cases h : (crowded.place 10 [0, 1, 2, 3, 4]).outcome with
  | error e =>
    rw [h] at hresult
    cases hresult
  | ok r =>
    obtain ⟨ls, b⟩ := r
    rw [h] at hresult
    have heq := Except.ok.inj hresult
    exact ⟨ls, b, rfl, congrArg Prod.fst heq, congrArg Prod.snd heq, place_keeps_blocks (by decide) (by decide) h⟩

end Board

end PulseSequencer
