import PulseSequencer.Branch.Tree
import PulseSequencer.Proofs.Graph

/-!
# The reachability check is exact

The tree shares its subtrees and is cut at a depth, and yet its leaves tell whether there is a path that is too long,
and if there is none, whether a walk of any length reaches the end.

* `Tree.Has`, `Tree.mem_leaves` : the leaves of a tree, and that visiting shared subtrees once finds them all;
* `Tree.Expansion.Explores`, `Tree.exists_expand` : what the leaves below a jump say about the paths from it;
* `JumpGraph.Verdict`, `Tree.verdict_exact` : the outcome of the check.
-/

namespace PulseSequencer

namespace Tree

/-! ## Leaves -/

/-- The leaf is somewhere in the tree. -/
inductive Has : Tree → Leaf → Prop
  | leaf (l : Leaf) : Has (.leaf l) l
  | branch {serial : Nat} {name : String} {branches : List (String × Tree)} {e : String × Tree} {l : Leaf}
      (he : e ∈ branches) (h : Has e.2 l) : Has (.jump serial name branches) l

/-- Every jump node has a serial number below the bound and is the tree which that number stands for. -/
inductive Owned (own : Nat → Tree) (bound : Nat) : Tree → Prop
  | leaf (l : Leaf) : Owned own bound (.leaf l)
  | jump {serial : Nat} {name : String} {branches : List (String × Tree)} (hlt : serial < bound)
      (hown : own serial = .jump serial name branches) (hsub : ∀ e ∈ branches, Owned own bound e.2) :
      Owned own bound (.jump serial name branches)

theorem has_leaf {l l' : Leaf} : (Tree.leaf l).Has l' ↔ l' = l := by
  constructor
  · intro h
    cases h
    rfl
  · rintro rfl
    exact .leaf l'

theorem has_jump {serial : Nat} {name : String} {branches : List (String × Tree)} {l : Leaf} :
    (Tree.jump serial name branches).Has l ↔ ∃ e ∈ branches, e.2.Has l := by
  constructor
  · intro h
    cases h with
    | branch he h => exact ⟨_, he, h⟩
  · rintro ⟨e, he, h⟩
    exact .branch he h

/-- Of the numbers seen so far, those that are not being visited have all their leaves found. -/
def Visited (own : Nat → Tree) (active seen : List Nat) (found : List Leaf) : Prop :=
  ∀ n ∈ seen, n ∈ active ∨ ∀ l, (own n).Has l → l ∈ found

/-- A visit finds some leaves and forgets none. -/
structure Collects (own : Nat → Tree) (active : List Nat) (has : Leaf → Prop) (found : List Leaf)
    (r : List Nat × List Leaf) : Prop where
  keeps : ∀ l ∈ found, l ∈ r.2
  sound : ∀ l ∈ r.2, l ∈ found ∨ has l
  complete : ∀ l, has l → l ∈ r.2
  visited : Visited own active r.1 r.2

section Collect

variable {own : Nat → Tree} {bound : Nat}

theorem sizeOf_branch {serial : Nat} {name : String} {branches : List (String × Tree)} {e : String × Tree}
    (he : e ∈ branches) : sizeOf e.2 < sizeOf (Tree.jump serial name branches) := by
  have hmem := List.sizeOf_lt_of_mem he
  have hpair : sizeOf e = 1 + sizeOf e.1 + sizeOf e.2 := rfl
  rw [Tree.jump.sizeOf_spec]
  omega

theorem collects_branches {active : List Nat} {branches : List (String × Tree)}
    (h : ∀ e ∈ branches, ∀ seen found, Visited own active seen found →
      Collects own active e.2.Has found (collect e.2 seen found)) :
    ∀ seen found, Visited own active seen found →
      Collects own active (fun l => ∃ e ∈ branches, e.2.Has l) found (collectBranches branches seen found) := by
  induction branches with
  | nil =>
    intro seen found hv
    exact ⟨fun _ hl => hl, fun _ hl => .inl hl, by simp, hv⟩
  | cons e branches ih =>
    intro seen found hv
    obtain ⟨label, t⟩ := e
    rw [collectBranches]
    have hfirst := h (label, t) List.mem_cons_self seen found hv
    have hrest := ih (fun e he => h e (List.mem_cons_of_mem _ he)) _ _ hfirst.visited
    refine ⟨fun l hl => hrest.keeps l (hfirst.keeps l hl), fun l hl => ?_, fun l hl => ?_, hrest.visited⟩
    · rcases hrest.sound l hl with hl | ⟨e, he, hl⟩
      · exact (hfirst.sound l hl).imp_right fun hl => ⟨_, List.mem_cons_self, hl⟩
      · exact .inr ⟨e, List.mem_cons_of_mem _ he, hl⟩
    · obtain ⟨e, he, hl⟩ := hl
      rcases List.mem_cons.1 he with rfl | he
      · exact hrest.keeps l (hfirst.complete l hl)
      · exact hrest.complete l ⟨e, he, hl⟩

/-- The nodes that are being visited are larger than the tree, so they are not met again in it. -/
theorem collects {t : Tree} (h : t.Owned own bound) : ∀ active, (∀ n ∈ active, sizeOf t < sizeOf (own n)) →
    ∀ seen found, Visited own active seen found → Collects own active t.Has found (collect t seen found) := by
  induction h with
  | leaf l =>
    intro active _ seen found hv
    rw [collect]
    refine ⟨fun l' hl => List.mem_cons_of_mem _ hl, fun l' hl => ?_, fun l' hl => ?_, fun n hn => ?_⟩
    · rcases List.mem_cons.1 hl with rfl | hl
      · exact .inr (.leaf l')
      · exact .inl hl
    · rw [has_leaf.1 hl]
      exact List.mem_cons_self
    · exact (hv n hn).imp_right fun hall l' hl => List.mem_cons_of_mem _ (hall l' hl)
  | @jump serial name branches hlt hown hsub ih =>
    intro active hactive seen found hv
    rw [collect]
    split
    · rename_i hseen
      rw [List.contains_iff_mem] at hseen
      refine ⟨fun _ hl => hl, fun _ hl => .inl hl, fun l hl => ?_, hv⟩
      rcases hv serial hseen with hmem | hall
      · have := hactive serial hmem
        rw [hown] at this
        exact absurd this (lt_irrefl _)
      · exact hall l (by rw [hown]; exact hl)
    · have hbranches := @collects_branches own (serial :: active) branches
        (fun e he => ih e he (serial :: active) fun n hn => ?_) (serial :: seen) found fun n hn => ?_
      · refine ⟨hbranches.keeps, fun l hl => ?_, fun l hl => ?_, fun n hn => ?_⟩
        · rw [has_jump]
          exact hbranches.sound l hl
        · exact hbranches.complete l (has_jump.1 hl)
        · rcases hbranches.visited n hn with hn | hall
          · rcases List.mem_cons.1 hn with rfl | hn
            · refine .inr fun l hl => hbranches.complete l ?_
              rw [hown] at hl
              exact has_jump.1 hl
            · exact .inl hn
          · exact .inr hall
      · have hsize := @sizeOf_branch serial name _ _ he
        rcases List.mem_cons.1 hn with rfl | hn
        · rw [hown]
          exact hsize
        · exact hsize.trans (hactive n hn)
      · rcases List.mem_cons.1 hn with rfl | hn
        · exact .inl List.mem_cons_self
        · exact (hv n hn).imp_left fun hn => List.mem_cons_of_mem _ hn

theorem mem_leaves {t : Tree} (h : t.Owned own bound) {l : Leaf} : l ∈ t.leaves ↔ t.Has l := by
  have hall := collects h [] (by simp) [] [] (by intro n hn; cases hn)
  unfold leaves
  rw [List.mem_reverse]
  constructor
  · intro hl
    exact (hall.sound l hl).resolve_left List.not_mem_nil
  · exact hall.complete l

end Collect

/-! ## Expansion -/

theorem Owned.mono {own own' : Nat → Tree} {bound bound' : Nat} {t : Tree} (h : t.Owned own bound)
    (hown : ∀ n < bound, own' n = own n) (hbound : bound ≤ bound') : t.Owned own' bound' := by
  induction h with
  | leaf l => exact .leaf l
  | jump hlt hself _ ih => exact .jump (hlt.trans_le hbound) ((hown _ hlt).trans hself) ih

/-- A number that stands for a leaf is free to stand for another tree. -/
theorem Owned.update {own : Nat → Tree} {bound serial : Nat} {t : Tree} {l : Leaf} (h : t.Owned own bound)
    (hfree : own serial = .leaf l) (t' : Tree) : t.Owned (Function.update own serial t') bound := by
  induction h with
  | leaf l => exact .leaf l
  | @jump n name branches hlt hself _ ih =>
    refine .jump hlt ?_ ih
    have hne : n ≠ serial := by
      rintro rfl
      rw [hself] at hfree
      cases hfree
    rw [Function.update_of_ne hne, hself]

end Tree

namespace JumpGraph

/-- No walk from the jump has more than so many jumps. -/
def Short (g : JumpGraph) : Nat → TimedJump → Prop
  | 0, _ => False
  | n + 1, j => ∀ k, g.Edge j (some k) → g.Short n k

theorem Short.mono {g : JumpGraph} {n m : Nat} (hle : n ≤ m) : ∀ {j : TimedJump}, g.Short n j → g.Short m j := by
  induction n generalizing m with
  | zero => exact fun h => absurd h id
  | succ n ih =>
    intro j h
    obtain ⟨m, rfl⟩ : ∃ m', m = m' + 1 := ⟨m - 1, by omega⟩
    exact fun k hk => ih (by omega) (h k hk)

theorem Short.length_lt {g : JumpGraph} {n : Nat} {avoid : List String} {p : List TimedJump} : ∀ {j : TimedJump},
    g.Short n j → g.Simple avoid (j :: p) → p.length < n := by
  induction p generalizing n avoid with
  | nil =>
    intro j h _
    cases n with
    | zero => exact absurd h id
    | succ n => exact Nat.succ_pos n
  | cons k p ih =>
    intro j h hp
    obtain ⟨-, hedge, hrest⟩ := simple_cons_cons.1 hp
    cases n with
    | zero => exact absurd h id
    | succ n => exact Nat.succ_lt_succ (ih (h k hedge) hrest)

end JumpGraph

namespace Tree

variable {g : JumpGraph} {own own' : Nat → Tree} {levels : Nat} {path : List String} {j k : TimedJump}
  {next : Option TimedJump} {e : Expansion} {b b' : Builder}

namespace Expansion

/-- A subtree that is the same on every path: all walks end. -/
structure Closed (g : JumpGraph) (j : TimedJump) (e : Expansion) : Prop where
  short : g.Short (e.height + 1) j
  isJump : e.tree.isJump = true
  leaves : ∀ l, e.tree.Has l ↔ l = .terminator
  ends : g.Ends j

/-- What the subtree of a jump says about the paths on from it, with `levels` more jumps on a path. -/
structure Explores (g : JumpGraph) (levels : Nat) (path : List String) (j : TimedJump) (e : Expansion) : Prop where
  ends : e.tree.Has .terminator → g.Ends j
  finds : ∀ p k, g.Simple path (j :: p) → p.length < levels → (j :: p).getLast? = some k → g.Edge k none →
    e.tree.Has .terminator
  cut : (∃ name, e.tree.Has (.aborted name)) ↔ ∃ p, g.Simple path (j :: p) ∧ p.length = levels
  closed : e.closed = true → e.Closed g j

theorem Closed.explores (h : e.Closed g j) (hheight : e.height < levels) : e.Explores g levels path j where
  ends _ := h.ends
  finds _ _ _ _ _ _ := (h.leaves _).2 rfl
  cut := by
    constructor
    · rintro ⟨name, hname⟩
      cases (h.leaves _).1 hname
    · rintro ⟨p, hp, hlength⟩
      have := h.short.length_lt hp
      omega
  closed _ := h

/-- The branch of a target: the end, or the subtree of the next jump. -/
def Goes (g : JumpGraph) (levels : Nat) (path : List String) : Option TimedJump → Expansion → Prop
  | none, e => e = ⟨.leaf .terminator, 0, true⟩
  | some k, e => e.Explores g levels path k

end Expansion

/-- Shared subtrees are closed. -/
def Builder.Valid (g : JumpGraph) (own : Nat → Tree) (b : Builder) : Prop :=
  ∀ e ∈ b.shared, e.2.tree.Owned own b.count ∧ ∃ j ∈ g.jumps, j.name = e.1 ∧ e.2.Closed g j

/-- Numbers that have been given keep their trees. -/
structure Builder.Extends (own : Nat → Tree) (b : Builder) (own' : Nat → Tree) (b' : Builder) : Prop where
  count : b.count ≤ b'.count
  own : ∀ n < b.count, own' n = own n

theorem Builder.Extends.trans {own'' : Nat → Tree} {b'' : Builder} (h : Builder.Extends own b own' b')
    (h' : Builder.Extends own' b' own'' b'') : Builder.Extends own b own'' b'' where
  count := h.count.trans h'.count
  own n hn := (h'.own n (hn.trans_le h.count)).trans (h.own n hn)

/-- A finished subtree, and what has been built with it. -/
structure Grown (g : JumpGraph) (own : Nat → Tree) (b : Builder) (own' : Nat → Tree) (r : Expansion × Builder) :
    Prop where
  extends_ : Builder.Extends own b own' r.2
  valid : r.2.Valid g own'
  owned : r.1.tree.Owned own' r.2.count

theorem grown_leaf (hb : b.Valid g own) (l : Leaf) : Grown g own b own (b.leaf l) where
  extends_ := ⟨Nat.le_succ _, fun _ _ => rfl⟩
  valid e he := by
    obtain ⟨howned, hclosed⟩ := hb e he
    exact ⟨howned.mono (fun _ _ => rfl) (Nat.le_succ _), hclosed⟩
  owned := .leaf l

/-- The branches of a jump that have been joined, target by target. -/
structure Joined (g : JumpGraph) (levels : Nat) (path : List String) (j : TimedJump) (ts : List Target)
    (acc r : List (String × Tree) × Nat × Bool) (es : List (Target × Option TimedJump × Expansion)) : Prop where
  targets : es.map Prod.fst = ts
  branches : r.1 = acc.1 ++ es.map fun x => (x.1.text, x.2.2.tree)
  leads : ∀ x ∈ es, g.Leads j x.1 x.2.1
  goes : ∀ x ∈ es, x.2.2.Goes g levels path x.2.1
  height : acc.2.1 ≤ r.2.1 ∧ ∀ x ∈ es, x.2.2.tree.isJump = true → x.2.2.height < r.2.1
  closed : r.2.2 = true → acc.2.2 = true ∧ ∀ x ∈ es, x.2.2.closed = true

theorem exists_foldlM_join
    {f : (List (String × Tree) × Nat × Bool) × Builder → Target →
      Except Fault ((List (String × Tree) × Nat × Bool) × Builder)} {ts : List Target}
    (hf : ∀ t ∈ ts, ∀ own acc, acc.2.Valid g own → ∃ next sub own' b', g.Leads j t next ∧
      f acc t = .ok (sub.join t.text acc.1.1 acc.1.2.1 acc.1.2.2, b') ∧ Grown g own acc.2 own' (sub, b') ∧
      sub.Goes g levels path next) :
    ∀ own acc, acc.2.Valid g own → (∀ x ∈ acc.1.1, x.2.Owned own acc.2.count) →
      ∃ own' r es, ts.foldlM f acc = .ok r ∧ Builder.Extends own acc.2 own' r.2 ∧ r.2.Valid g own' ∧
        (∀ x ∈ r.1.1, x.2.Owned own' r.2.count) ∧ Joined g levels path j ts acc.1 r.1 es := by
  induction ts with
  | nil =>
    intro own acc hvalid howned
    refine ⟨own, acc, [], rfl, ⟨le_refl _, fun _ _ => rfl⟩, hvalid, howned, rfl, (List.append_nil _).symm, ?_, ?_, ?_,
      ?_⟩
    · simp
    · simp
    · simp
    · simp
  | cons t ts ih =>
    intro own acc hvalid howned
    obtain ⟨next, sub, own₁, b₁, hleads, hstep, hgrown, hgoes⟩ := hf t List.mem_cons_self own acc hvalid
    have howned₁ : ∀ x ∈ (sub.join t.text acc.1.1 acc.1.2.1 acc.1.2.2).1, x.2.Owned own₁ b₁.count := by
      intro x hx
      rcases List.mem_append.1 hx with hx | hx
      · exact (howned x hx).mono hgrown.extends_.own hgrown.extends_.count
      · rw [List.mem_singleton.1 hx]
        exact hgrown.owned
    obtain ⟨own₂, r, es, hfold, hext, hvalid₂, howned₂, hjoined⟩ :=
      ih (fun t ht => hf t (List.mem_cons_of_mem _ ht)) own₁ (_, b₁) hgrown.valid howned₁
    refine ⟨own₂, r, (t, next, sub) :: es, Except.foldlM_cons_eq_ok.2 ⟨_, hstep, hfold⟩, hgrown.extends_.trans hext,
      hvalid₂, howned₂, ?_⟩
    have hheight := hjoined.height
    have hclosed := hjoined.closed
    simp only at hheight hclosed
    refine ⟨?_, ?_, ?_, ?_, ?_, fun hr => ?_⟩
    · rw [List.map_cons, hjoined.targets]
    · rw [hjoined.branches]
      exact List.append_assoc _ _ _
    · exact List.forall_mem_cons.2 ⟨hleads, hjoined.leads⟩
    · exact List.forall_mem_cons.2 ⟨hgoes, hjoined.goes⟩
    · refine ⟨le_trans ?_ hheight.1, List.forall_mem_cons.2 ⟨fun hjump => ?_, hheight.2⟩⟩
      · split
        · exact le_max_left _ _
        · exact le_refl _
      · have := hheight.1
        rw [if_pos hjump] at this
        exact lt_of_lt_of_le (Nat.lt_succ_self _) ((le_max_right _ _).trans this)
    · obtain ⟨hand, hrest⟩ := hclosed hr
      rw [Bool.and_eq_true] at hand
      exact ⟨hand.1, List.forall_mem_cons.2 ⟨hand.2, hrest⟩⟩

namespace Joined

variable {height serial : Nat} {closed : Bool} {branches : List (String × Tree)}
  {es : List (Target × Option TimedJump × Expansion)}
  (h : Joined g levels (j.name :: path) j j.targets ([], 0, true) (branches, height, closed) es)

include h

/-- The leaves below the jump are those of its branches. -/
theorem has_iff {l : Leaf} : (Tree.jump serial j.name branches).Has l ↔ ∃ x ∈ es, x.2.2.tree.Has l := by
  have hbranches : branches = es.map fun x => (x.1.text, x.2.2.tree) := h.branches
  rw [has_jump, hbranches]
  simp only [List.mem_map, exists_exists_and_eq_and]

theorem exists_of_rung {r : Rung} (hr : r ∈ j.ladder) : ∃ x ∈ es, x.1 = r.target := by
  have hmem : r.target ∈ es.map Prod.fst := by
    rw [h.targets]
    exact JumpGraph.mem_targets.2 ⟨r, hr, rfl⟩
  exact List.mem_map.1 hmem

/-- Every edge of the jump has its branch. -/
theorem exists_of_edge (hg : g.Ordered) (hedge : g.Edge j next) :
    ∃ x ∈ es, x.2.2.Goes g levels (j.name :: path) next := by
  obtain ⟨r, hr, hleads⟩ := hedge
  obtain ⟨x, hx, htarget⟩ := h.exists_of_rung hr
  have hleads' := h.leads x hx
  rw [htarget] at hleads'
  have hnext : x.2.1 = next := Except.ok.inj ((hg.successor_eq_ok.2 hleads').symm.trans (hg.successor_eq_ok.2 hleads))
  exact ⟨x, hx, hnext ▸ h.goes x hx⟩

/-- Every branch belongs to an edge: to that of the end, or to one to a jump that is explored. -/
theorem cases_of_mem {x : Target × Option TimedJump × Expansion} (hx : x ∈ es) :
    (g.Edge j none ∧ x.2.2 = ⟨.leaf .terminator, 0, true⟩) ∨
      ∃ k, g.Edge j (some k) ∧ x.2.2.Explores g levels (j.name :: path) k := by
  have hmem : x.1 ∈ j.targets := by
    rw [← h.targets]
    exact List.mem_map_of_mem hx
  obtain ⟨r, hr, htarget⟩ := JumpGraph.mem_targets.1 hmem
  have hedge : g.Edge j x.2.1 := ⟨r, hr, htarget ▸ h.leads x hx⟩
  have hgoes := h.goes x hx
  cases hnext : x.2.1 with
  | none =>
    rw [hnext] at hedge hgoes
    exact .inl ⟨hedge, hgoes⟩
  | some k =>
    rw [hnext] at hedge hgoes
    exact .inr ⟨k, hedge, hgoes⟩

theorem ends (hterm : (Tree.jump serial j.name branches).Has .terminator) : g.Ends j := by
  obtain ⟨x, hx, hterm⟩ := h.has_iff.1 hterm
  obtain ⟨hedge, -⟩ | ⟨k, hedge, hexplores⟩ := h.cases_of_mem hx
  · exact ⟨j, .refl, hedge⟩
  · obtain ⟨k', hwalk, hend⟩ := hexplores.ends hterm
    exact ⟨k', .head hedge hwalk, hend⟩

theorem finds (hg : g.Ordered) {p : List TimedJump} (hp : g.Simple path (j :: p)) (hlength : p.length < levels + 1)
    (hlast : (j :: p).getLast? = some k) (hend : g.Edge k none) :
    (Tree.jump serial j.name branches).Has .terminator := by
  cases p with
  | nil =>
    cases hlast
    obtain ⟨x, hx, hgoes⟩ := h.exists_of_edge hg hend
    refine h.has_iff.2 ⟨x, hx, ?_⟩
    rw [show x.2.2 = ⟨.leaf .terminator, 0, true⟩ from hgoes]
    exact .leaf _
  | cons k' p =>
    obtain ⟨-, hedge, hrest⟩ := JumpGraph.simple_cons_cons.1 hp
    obtain ⟨x, hx, hgoes⟩ := h.exists_of_edge hg hedge
    rw [List.getLast?_cons_cons] at hlast
    exact h.has_iff.2 ⟨x, hx, hgoes.finds p k hrest (Nat.lt_of_succ_lt_succ hlength) hlast hend⟩

theorem cut_iff (hg : g.Ordered) (hpath : j.name ∉ path) :
    (∃ name, (Tree.jump serial j.name branches).Has (.aborted name)) ↔
      ∃ p, g.Simple path (j :: p) ∧ p.length = levels + 1 := by
  constructor
  · rintro ⟨name, hname⟩
    obtain ⟨x, hx, hname⟩ := h.has_iff.1 hname
    obtain ⟨-, hleaf⟩ | ⟨k, hedge, hexplores⟩ := h.cases_of_mem hx
    · rw [hleaf] at hname
      cases has_leaf.1 hname
    · obtain ⟨p, hp, hlength⟩ := hexplores.cut.1 ⟨name, hname⟩
      exact ⟨k :: p, JumpGraph.simple_cons_cons.2 ⟨hpath, hedge, hp⟩, congrArg Nat.succ hlength⟩
  · rintro ⟨p, hp, hlength⟩
    cases p with
    | nil => cases hlength
    | cons k p =>
      obtain ⟨-, hedge, hrest⟩ := JumpGraph.simple_cons_cons.1 hp
      obtain ⟨x, hx, hgoes⟩ := h.exists_of_edge hg hedge
      obtain ⟨name, hname⟩ := hgoes.cut.2 ⟨p, hrest, Nat.succ.inj hlength⟩
      exact ⟨name, h.has_iff.2 ⟨x, hx, hname⟩⟩

/-- If all branches are closed, so is the jump. -/
theorem closes (hg : g.Ordered) (hj : j ∈ g.jumps) (hclosed : closed = true) :
    Expansion.Closed g j ⟨.jump serial j.name branches, height, closed⟩ := by
  obtain ⟨-, hall⟩ := h.closed hclosed
  have hleaves : ∀ x ∈ es, ∀ l, x.2.2.tree.Has l ↔ l = .terminator := by
    intro x hx l
    obtain ⟨-, hleaf⟩ | ⟨k, -, hexplores⟩ := h.cases_of_mem hx
    · rw [hleaf]
      exact has_leaf
    · exact (hexplores.closed (hall x hx)).leaves l
  have hterm : (Tree.jump serial j.name branches).Has .terminator := by
    obtain ⟨r, hr⟩ := List.exists_mem_of_ne_nil _ (hg.ladders j hj)
    obtain ⟨x, hx, -⟩ := h.exists_of_rung hr
    exact h.has_iff.2 ⟨x, hx, (hleaves x hx _).2 rfl⟩
  refine ⟨fun k hedge => ?_, rfl, fun l => ?_, h.ends hterm⟩
  · obtain ⟨x, hx, hgoes⟩ := h.exists_of_edge hg hedge
    have hk := hgoes.closed (hall x hx)
    exact hk.short.mono (h.height.2 x hx hk.isJump)
  · constructor
    · intro hl
      obtain ⟨x, hx, hl⟩ := h.has_iff.1 hl
      exact (hleaves x hx l).1 hl
    · rintro rfl
      exact hterm

/-- A jump explores what its targets lead to. -/
theorem explores (hg : g.Ordered) (hj : j ∈ g.jumps) (hpath : j.name ∉ path) :
    Expansion.Explores g (levels + 1) path j ⟨.jump serial j.name branches, height, closed⟩ where
  ends := h.ends
  finds _ _ := h.finds hg
  cut := h.cut_iff hg hpath
  closed := h.closes hg hj

end Joined

theorem explores_loop (hpath : j.name ∈ path) :
    Expansion.Explores g levels path j ⟨.leaf (.loop j.name), 0, false⟩ where
  ends h := by cases has_leaf.1 h
  finds p _ hp _ _ _ := absurd hpath (hp.avoids j List.mem_cons_self)
  cut := by
    constructor
    · rintro ⟨name, hname⟩
      cases has_leaf.1 hname
    · rintro ⟨p, hp, -⟩
      exact absurd hpath (hp.avoids j List.mem_cons_self)
  closed h := by cases h

theorem explores_aborted (hpath : j.name ∉ path) :
    Expansion.Explores g 0 path j ⟨.leaf (.aborted j.name), 0, false⟩ where
  ends h := by cases has_leaf.1 h
  finds _ _ _ h _ _ := absurd h (Nat.not_lt_zero _)
  cut := by
    constructor
    · intro _
      exact ⟨[], JumpGraph.simple_singleton.2 hpath, rfl⟩
    · intro _
      exact ⟨j.name, .leaf _⟩
  closed h := by cases h

theorem Builder.mem_of_shared? {name : String} (h : b.shared? name = some e) : (name, e) ∈ b.shared := by
  obtain ⟨x, hfind, rfl⟩ := Option.map_eq_some_iff.1 h
  have hx : x.1 = name := by simpa using List.find?_some hfind
  rw [← hx]
  exact List.mem_of_find?_eq_some hfind

theorem Builder.Valid.shared (hb : b.Valid g own) (hg : g.Ordered) (hj : j ∈ g.jumps) (h : b.shared? j.name = some e) :
    e.tree.Owned own b.count ∧ e.Closed g j := by
  obtain ⟨howned, j', hj', hname, hclosed⟩ := hb _ (mem_of_shared? h)
  rw [hg.eq_of_name hj' hj hname] at hclosed
  exact ⟨howned, hclosed⟩

/-- The branch of one target, joined to those before it. -/
def branch (g : JumpGraph) (levels : Nat) (path : List String) (j : TimedJump)
    (acc : (List (String × Tree) × Nat × Bool) × Builder) (target : Target) :
    Except Fault ((List (String × Tree) × Nat × Bool) × Builder) := do
  let (done, b) := acc
  let (sub, b) ← match ← g.successor j target with
    | none => pure (b.leaf .terminator)
    | some k => expand g levels (j.name :: path) k b
  return (sub.join target.text done.1 done.2.1 done.2.2, b)

theorem exists_branch (hg : g.Ordered) {t : Target} (ht : g.Resolves j t)
    (ih : ∀ k ∈ g.jumps, ∀ own b, b.Valid g own → ∃ r own', expand g levels (j.name :: path) k b = .ok r ∧
      Grown g own b own' r ∧ r.1.Explores g levels (j.name :: path) k)
    {acc : (List (String × Tree) × Nat × Bool) × Builder} (hacc : acc.2.Valid g own) :
    ∃ next sub own' b', g.Leads j t next ∧
      branch g levels path j acc t = .ok (sub.join t.text acc.1.1 acc.1.2.1 acc.1.2.2, b') ∧
      Grown g own acc.2 own' (sub, b') ∧ sub.Goes g levels (j.name :: path) next := by
  obtain ⟨next, hnext⟩ := hg.exists_leads ht
  have hsuccessor := hg.successor_eq_ok.2 hnext
  cases next with
  | none =>
    refine ⟨none, _, own, _, hnext, ?_, grown_leaf hacc .terminator, rfl⟩
    unfold branch
    rw [hsuccessor]
    rfl
  | some k =>
    obtain ⟨⟨sub, b'⟩, own', hexpand, hgrown, hexplores⟩ := ih k (JumpGraph.mem_of_leads hnext) own acc.2 hacc
    refine ⟨some k, sub, own', b', hnext, ?_, hgrown, hexplores⟩
    exact Except.bind_eq_ok.2 ⟨_, hsuccessor, Except.bind_eq_ok.2 ⟨_, hexpand, rfl⟩⟩

/-- Every jump can be expanded, whatever has been built before. -/
theorem exists_expand (hg : g.Ordered) (hres : ∀ j ∈ g.jumps, ∀ r ∈ j.ladder, g.Resolves j r.target) :
    ∀ levels path j, j ∈ g.jumps → ∀ own b, b.Valid g own → ∃ r own', expand g levels path j b = .ok r ∧
      Grown g own b own' r ∧ r.1.Explores g levels path j := by
  intro levels
  induction levels using Nat.strong_induction_on with
  | _ levels ih =>
  intro path j hj own b hb
  unfold expand
  split
  · rename_i hpath
    rw [List.contains_iff_mem] at hpath
    exact ⟨_, own, rfl, grown_leaf hb _, explores_loop hpath⟩
  rename_i hpath
  rw [List.contains_iff_mem] at hpath
  split
  · rename_i e he
    obtain ⟨he, hheight⟩ := Option.filter_eq_some_iff.1 he
    obtain ⟨howned, hclosed⟩ := hb.shared hg hj he
    exact ⟨_, own, rfl, ⟨⟨le_refl _, fun _ _ => rfl⟩, hb, howned⟩, hclosed.explores (of_decide_eq_true hheight)⟩
  cases levels with
  | zero => exact ⟨_, own, rfl, grown_leaf hb _, explores_aborted hpath⟩
  | succ levels =>
    -- while its branches are built, the number of the jump stands for no jump
    let start := Function.update own b.count (.leaf .terminator)
    have hstart : Builder.Valid g start { b with count := b.count + 1 } := fun e he => by
      obtain ⟨howned, hclosed⟩ := hb e he
      exact ⟨howned.mono (fun n hn => Function.update_of_ne hn.ne _ _) (Nat.le_succ _), hclosed⟩
    have hbranch : ∀ t ∈ j.targets, ∀ own acc, acc.2.Valid g own → ∃ next sub own' b', g.Leads j t next ∧
        branch g levels path j acc t = .ok (sub.join t.text acc.1.1 acc.1.2.1 acc.1.2.2, b') ∧
        Grown g own acc.2 own' (sub, b') ∧ sub.Goes g levels (j.name :: path) next := by
      intro t ht own acc hacc
      obtain ⟨r, hr, rfl⟩ := JumpGraph.mem_targets.1 ht
      exact exists_branch hg (hres j hj r hr) (fun k hk => ih levels (Nat.lt_succ_self _) (j.name :: path) k hk) hacc
    obtain ⟨own', ⟨⟨branches, height, closed⟩, b'⟩, es, hfold, hext, hvalid, howned, hjoined⟩ :=
      exists_foldlM_join hbranch start (([], 0, true), { b with count := b.count + 1 }) hstart (by simp)
    have hfree : own' b.count = .leaf .terminator := by
      rw [hext.own b.count (Nat.lt_succ_self _)]
      exact Function.update_self ..
    let final := Function.update own' b.count (.jump b.count j.name branches)
    have hexplores : Expansion.Explores g (levels + 1) path j ⟨.jump b.count j.name branches, height, closed⟩ :=
      hjoined.explores hg hj hpath
    have hself : (Tree.jump b.count j.name branches).Owned final b'.count :=
      .jump hext.count (Function.update_self ..) fun x hx => (howned x hx).update hfree _
    have hvalid' : b'.Valid g final := fun e he => ⟨(hvalid e he).1.update hfree _, (hvalid e he).2⟩
    refine ⟨_, final, Except.bind_eq_ok.2 ⟨_, hfold, rfl⟩, ⟨?_, ?_, ?_⟩, hexplores⟩
    · refine ⟨?_, fun n hn => ?_⟩
      · have hcount : b.count ≤ b'.count := Nat.le_of_succ_le hext.count
        simp only
        split <;> exact hcount
      · calc final n = own' n := Function.update_of_ne hn.ne _ _
          _ = start n := hext.own n (Nat.lt_succ_of_lt hn)
          _ = own n := Function.update_of_ne hn.ne _ _
    · simp only
      split
      · rename_i hclosed
        exact List.forall_mem_cons.2 ⟨⟨hself, j, hj, rfl, hexplores.closed hclosed⟩, hvalid'⟩
      · exact hvalid'
    · simp only
      split <;> exact hself

/-! ## The check -/

theorem exists_aborted_iff {leaves : List Leaf} :
    (∃ name, aborted? leaves = some name) ↔ ∃ name, .aborted name ∈ leaves := by
  constructor
  · rintro ⟨name, hname⟩
    obtain ⟨l, hl, hl'⟩ := List.exists_of_findSome?_eq_some hname
    cases l with
    | aborted n => exact ⟨n, hl⟩
    | terminator | loop _ => cases hl'
  · rintro ⟨name, hname⟩
    cases hfind : aborted? leaves with
    | some n => exact ⟨n, rfl⟩
    | none =>
      have := List.findSome?_eq_none_iff.1 hfind _ hname
      cases this

end Tree

namespace JumpGraph

def Earliest (g : JumpGraph) (first : TimedJump) : Prop :=
  first ∈ g.jumps ∧ ∀ k ∈ g.jumps, k = first ∨ first.time < k.time

/-- A path without repetition from the earliest jump has more than a hundred jumps. -/
def Deep (g : JumpGraph) : Prop := ∃ first p, g.Earliest first ∧ g.Simple [] (first :: p) ∧ 100 < (first :: p).length

/-- From the earliest jump on, if there are jumps, a walk reaches the end. -/
def Terminates (g : JumpGraph) : Prop := ∀ first, g.Earliest first → g.Ends first

/-- What the check of a graph says. -/
inductive Verdict (g : JumpGraph) (outcome : Except Fault Unit) : Prop
  | tooDeep (f : Fault) (hdeep : g.Deep) (hkind : f.kind = .depthExceeded) (h : outcome = .error f)
  | unreachable (f : Fault) (hdeep : ¬ g.Deep) (hends : ¬ g.Terminates) (hkind : f.kind = .unreachableTerminator)
      (h : outcome = .error f)
  | accepted (hdeep : ¬ g.Deep) (hends : g.Terminates) (h : outcome = .ok ())

theorem Ordered.earliest_iff {g : JumpGraph} (hg : g.Ordered) {first k : TimedJump} {rest : List TimedJump}
    (hjumps : g.jumps = first :: rest) : g.Earliest k ↔ k = first := by
  have htimes := hg.times
  rw [hjumps] at htimes
  have hfirst := (List.pairwise_cons.1 htimes).1
  unfold Earliest
  rw [hjumps]
  constructor
  · rintro ⟨hk, hall⟩
    rcases List.mem_cons.1 hk with rfl | hk
    · rfl
    · rcases hall first List.mem_cons_self with rfl | hlt
      · rfl
      · exact absurd (Binary64.lt_trans hlt (hfirst k hk)) (Binary64.lt_irrefl _)
  · rintro rfl
    exact ⟨List.mem_cons_self, List.forall_mem_cons.2 ⟨.inl rfl, fun k hk => .inr (hfirst k hk)⟩⟩

/-- A path may be cut off anywhere. -/
theorem Simple.take {g : JumpGraph} {avoid : List String} {p : List TimedJump} (h : g.Simple avoid p) (n : Nat) :
    g.Simple avoid (p.take n) where
  chain := h.chain.take n
  nodup := by
    rw [List.map_take]
    exact h.nodup.sublist (List.take_sublist _ _)
  avoids k hk := h.avoids k (List.mem_of_mem_take hk)

end JumpGraph

namespace Tree

section Root

variable {g : JumpGraph} {e : Expansion} {first : TimedJump} {rest : List TimedJump} (hg : g.Ordered)
  (hjumps : g.jumps = first :: rest) (h : e.Explores g maxDepth [] first)

include hg hjumps h

/-- The tree of the earliest jump is cut off exactly if a path is too long. -/
theorem aborted_iff_deep : (∃ name, e.tree.Has (.aborted name)) ↔ g.Deep := by
  rw [h.cut]
  constructor
  · rintro ⟨p, hp, hlength⟩
    refine ⟨first, p, (hg.earliest_iff hjumps).2 rfl, hp, ?_⟩
    rw [List.length_cons, hlength]
    decide
  · rintro ⟨k, p, hk, hp, hlength⟩
    rw [(hg.earliest_iff hjumps).1 hk] at hp
    refine ⟨p.take maxDepth, hp.take (maxDepth + 1), ?_⟩
    rw [List.length_take]
    rw [List.length_cons] at hlength
    unfold maxDepth
    omega

/-- Unless it is cut off, it has a terminator exactly if a walk reaches the end. -/
theorem terminator_iff_terminates (hdeep : ¬ g.Deep) : e.tree.Has .terminator ↔ g.Terminates := by
  have hfirst : first ∈ g.jumps := hjumps ▸ List.mem_cons_self
  constructor
  · intro hterm k hk
    rw [(hg.earliest_iff hjumps).1 hk]
    exact h.ends hterm
  · intro hall
    obtain ⟨p, k, hp, hlast, hend⟩ := hg.exists_simple hfirst (hall first ((hg.earliest_iff hjumps).2 rfl))
    refine h.finds p k hp ?_ hlast hend
    by_contra hlength
    refine hdeep ⟨first, p, (hg.earliest_iff hjumps).2 rfl, hp, ?_⟩
    rw [List.length_cons]
    unfold maxDepth at hlength
    omega

end Root

theorem verdict_of_ordered {g : JumpGraph} (hg : g.Ordered)
    (hres : ∀ j ∈ g.jumps, ∀ r ∈ j.ladder, g.Resolves j r.target) (subject : String) :
    g.Verdict (build g >>= fun r => r.1.check subject) := by
  cases hjumps : g.jumps with
  | nil =>
    have hnone : ∀ first, ¬ g.Earliest first := fun first h => by
      have := h.1
      rw [hjumps] at this
      cases this
    refine .accepted ?_ (fun first h => absurd h (hnone first)) ?_
    · rintro ⟨first, -, h, -⟩
      exact hnone first h
    · unfold build
      rw [hjumps]
      rfl
  | cons first rest =>
    have hfirst : first ∈ g.jumps := hjumps ▸ List.mem_cons_self
    obtain ⟨⟨e, b⟩, own, hexpand, hgrown, hexplores⟩ := exists_expand hg hres maxDepth [] first hfirst
      (fun _ => .leaf .terminator) ⟨0, []⟩ (fun e he => by cases he)
    have hbuild : build g = .ok (e.tree, b.count) := by
      unfold build
      rw [hjumps]
      exact Except.bind_eq_ok.2 ⟨_, hexpand, rfl⟩
    have hmem := fun l => mem_leaves (l := l) hgrown.owned
    have hdeep : (∃ name, aborted? e.tree.leaves = some name) ↔ g.Deep := by
      rw [exists_aborted_iff, ← aborted_iff_deep hg hjumps hexplores]
      simp only [hmem]
    rw [hbuild]
    change g.Verdict (e.tree.check subject)
    unfold check
    simp only
    split
    · rename_i name hname
      exact .tooDeep _ (hdeep.1 ⟨name, hname⟩) rfl rfl
    · rename_i hname
      have hno : ¬ g.Deep := fun h => by
        obtain ⟨name, h⟩ := hdeep.2 h
        rw [hname] at h
        cases h
      have hends := terminator_iff_terminates hg hjumps hexplores hno
      split
      · rename_i hterm
        rw [List.contains_iff_mem, hmem, hends] at hterm
        exact .accepted hno hterm rfl
      · rename_i hterm
        rw [List.contains_iff_mem, hmem, hends] at hterm
        exact .unreachable _ hno hterm rfl rfl

/-- The check of a sequence with jumps of different names and times, whose destinations are there, is exact. -/
theorem verdict_exact {t : Timeline} {g : JumpGraph} (hg : JumpGraph.ofTimeline t = .ok g)
    (hnames : (t.sequence.jumps.map fun e => e.1.name).Nodup)
    (htimes : g.jumps.Pairwise fun a b => a.time < b.time ∨ b.time < a.time)
    (hres : ∀ j ∈ g.jumps, ∀ r ∈ j.ladder, g.Resolves j r.target) (subject : String) :
    g.Verdict (build g >>= fun r => r.1.check subject) :=
  verdict_of_ordered (JumpGraph.ordered_of_ofTimeline hg hnames htimes) hres subject

/-- A jump that goes back to the one before it, or ends the sequence. -/
def ring : Timeline where
  sequence := {
    name := "ring", length := 40, shots := 1, variants := 1, hardware := default, controls := []
    channels := [⟨"detector", [⟨"gate", .absolute 3, .absolute 5⟩], .control [
      ⟨"back", .absolute 20, .branch "gate" [.atLeast 3 (.destination (.start "gate")), .otherwise .terminate]⟩,
      ⟨"on", .absolute 9, .branch "gate" [.atLeast 5 (.destination (.jump "back"))]⟩]⟩] }
  values := []

theorem verdict_ring : ∃ g, JumpGraph.ofTimeline ring = .ok g ∧ (ring.sequence.jumps.map fun e => e.1.name).Nodup ∧
    (g.jumps.Pairwise fun a b => a.time < b.time ∨ b.time < a.time) ∧
    (∀ j ∈ g.jumps, ∀ r ∈ j.ladder, g.Resolves j r.target) ∧
    g.Verdict (build g >>= fun r => r.1.check "ring") := by
  have hjumps : (JumpGraph.ofTimeline ring).toOption.map JumpGraph.jumps = some [
      ⟨"on", 9, [⟨5, .destination (.jump "back")⟩, ⟨0, .pass⟩]⟩,
      ⟨"back", 20, [⟨3, .destination (.start "gate")⟩, ⟨0, .terminate⟩]⟩] := by decide +kernel
  cases hg : JumpGraph.ofTimeline ring with
  | error f =>
    rw [hg] at hjumps
    cases hjumps
  | ok g =>
    rw [hg] at hjumps
    replace hjumps := Option.some.inj hjumps
    have hnames : (ring.sequence.jumps.map fun e => e.1.name).Nodup := by decide
    have htimes : g.jumps.Pairwise fun a b => a.time < b.time ∨ b.time < a.time := by
      rw [hjumps]
      decide +kernel
    have hres : ∀ j ∈ g.jumps, ∀ r ∈ j.ladder, g.Resolves j r.target := by
      have hgate : g.timeline.timeOf (.start "gate") "back" = .ok 3 := by
        rw [(JumpGraph.perm_of_ofTimeline hg).1]
        decide +kernel
      rw [hjumps]
      simp [JumpGraph.Resolves, hgate, hjumps]
    exact ⟨g, rfl, hnames, htimes, hres, verdict_exact hg hnames htimes hres "ring"⟩

end Tree

end PulseSequencer
