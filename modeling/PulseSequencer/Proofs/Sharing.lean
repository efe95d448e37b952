import PulseSequencer.Proofs.Reachability
import PulseSequencer.Proofs.Resolution

/-!
# Shared subtrees

A reachability tree is built with a memory of finished subtrees, which are used again on other paths and at other
depths. Written out, it is the tree of the plain recursion, loops and cuts included.

* `Unfolded`, `Tree.unfold` : trees in which nothing is shared, and a tree with its shared subtrees written out;
* `Unfolded.ofJump`, `Unfolded.ofGraph` : the plain recursion, without a memory;
* `Unfolded.ofJump_of_finished` : a subtree without loops and cuts is the same on every path that it fits on;
* `Unfolded.acc_of_finished` : the jumps below such a subtree lead in no circle, so none is on the path to it;
* `Tree.rel_expand`, `Tree.build_unfolds` : the two recursions agree.
-/

namespace PulseSequencer

/-- A tree in which no subtree is shared. -/
inductive Unfolded where
  | leaf (l : Leaf)
  | jump (name : String) (branches : List (String × Unfolded))
deriving Inhabited

namespace Tree

mutual

/-- The tree with its shared subtrees written out. -/
def unfold : Tree → Unfolded
  | leaf l => .leaf l
  | jump _ name branches => .jump name (unfoldBranches branches)

def unfoldBranches : List (String × Tree) → List (String × Unfolded)
  | [] => []
  | (label, t) :: rest => (label, unfold t) :: unfoldBranches rest

end

theorem unfoldBranches_append (bs cs : List (String × Tree)) :
    unfoldBranches (bs ++ cs) = unfoldBranches bs ++ unfoldBranches cs := by
  induction bs with
  | nil => rfl
  | cons e bs ih => rw [List.cons_append, unfoldBranches, unfoldBranches, ih, List.cons_append]

end Tree

namespace Unfolded

/-! ## The plain recursion -/

/-- The subtree of a jump that is reached along `path`: one branch for each distinct target of its ladder. -/
def ofJump (g : JumpGraph) (path : List String) (j : TimedJump) : Except Fault Unfolded :=
  if j.name ∈ path then .ok (.leaf (.loop j.name))
  else if _ : Tree.maxDepth ≤ path.length then .ok (.leaf (.aborted j.name))
  else do
    let branches ← (j.ladder.map Rung.target).eraseDups.mapM fun target => do
      let sub ← match ← g.successor j target with
        | none => pure (.leaf .terminator)
        | some k => ofJump g (j.name :: path) k
      return (target.text, sub)
    return .jump j.name branches
termination_by Tree.maxDepth - path.length

def ofGraph (g : JumpGraph) : Except Fault Unfolded :=
  match g.jumps with
  | [] => .ok (.leaf .terminator)
  | first :: _ => ofJump g [] first

end Unfolded

namespace JumpGraph

/-- One of the targets of `j` leads on to `k`. -/
def Step (g : JumpGraph) (j k : TimedJump) : Prop := ∃ t ∈ j.targets, g.successor j t = .ok (some k)

theorem mem_of_successor {g : JumpGraph} {j k : TimedJump} {t : Target} (h : g.successor j t = .ok (some k)) :
    k ∈ g.jumps := by
  have hnext : ∀ {time}, g.nextAfter time = some k → k ∈ g.jumps := fun h => List.mem_of_find?_eq_some h
  cases t with
  | terminate => cases h
  | pass => exact hnext (Except.ok.inj h)
  | destination r =>
    cases r with
    | jump name =>
      unfold successor at h
      simp only at h
      split at h
      · rename_i hfind
        cases h
        exact List.mem_reverse.1 (List.mem_of_find?_eq_some hfind)
      · cases h
    | start w | finish w | control w =>
      obtain ⟨time, -, h⟩ := Except.bind_eq_ok.1 h
      exact hnext (Except.pure_eq_ok.1 h)

theorem Step.mem {g : JumpGraph} {j k : TimedJump} (h : g.Step j k) : k ∈ g.jumps := by
  obtain ⟨t, -, ht⟩ := h
  exact mem_of_successor ht

end JumpGraph

/-- The targets of a jump are those of its ladder, each at its first place. -/
theorem TimedJump.targets_eq (j : TimedJump) : j.targets = (j.ladder.map Rung.target).eraseDups := by
  have hfold : ∀ (l : Ladder) (ts : List Target),
      l.foldl (fun ts r => if ts.contains r.target then ts else ts ++ [r.target]) ts =
        ts ++ ((l.map Rung.target).filter fun t => !ts.contains t).eraseDups := by
    intro l
    induction l with
    | nil => simp
    | cons r l ih =>
      intro ts
      rw [List.foldl_cons, ih, List.map_cons, List.filter_cons]
      cases hr : ts.contains r.target with
      | true => simp
      | false =>
        simp only [Bool.false_eq_true, if_false, Bool.not_false, if_true, List.eraseDups_cons, List.append_assoc,
          List.singleton_append, List.filter_filter]
        congr 3
        refine List.filter_congr fun t _ => ?_
        simp [beq_eq_decide, Bool.and_comm]
  rw [targets, hfold, List.nil_append]
  simp

namespace Unfolded

variable {g : JumpGraph} {path path' : List String} {j k : TimedJump} {u : Unfolded} {name : String}
  {branches : List (String × Unfolded)} {e : String × Unfolded}

/-- The branch of a target that is taken with `path` behind it. -/
def branch (g : JumpGraph) (path : List String) (j : TimedJump) (target : Target) :
    Except Fault (String × Unfolded) := do
  let sub ← match ← g.successor j target with
    | none => pure (.leaf .terminator)
    | some k => ofJump g path k
  return (target.text, sub)

theorem ofJump_eq (g : JumpGraph) (path : List String) (j : TimedJump) : ofJump g path j =
    if j.name ∈ path then .ok (.leaf (.loop j.name))
    else if Tree.maxDepth ≤ path.length then .ok (.leaf (.aborted j.name))
    else (j.targets.mapM (branch g (j.name :: path) j)).map (.jump j.name) := by
  rw [ofJump, TimedJump.targets_eq]
  rfl

theorem branch_eq_ok {t : Target} : branch g path j t = .ok e ↔ e.1 = t.text ∧
    ((g.successor j t = .ok none ∧ e.2 = .leaf .terminator) ∨
      ∃ k, g.successor j t = .ok (some k) ∧ ofJump g path k = .ok e.2) := by
  obtain ⟨label, sub⟩ := e
  unfold branch
  rw [Except.bind_eq_ok]
  constructor
  · rintro ⟨next, hnext, h⟩
    cases next with
    | none =>
      cases h
      exact ⟨rfl, .inl ⟨hnext, rfl⟩⟩
    | some k =>
      obtain ⟨sub', hsub, h⟩ := Except.bind_eq_ok.1 h
      cases h
      exact ⟨rfl, .inr ⟨k, hnext, hsub⟩⟩
  · rintro ⟨rfl, ⟨hnext, rfl⟩ | ⟨k, hnext, hsub⟩⟩
    · exact ⟨none, hnext, rfl⟩
    · exact ⟨some k, hnext, Except.bind_eq_ok.2 ⟨sub, hsub, rfl⟩⟩

theorem ofJump_eq_jump : ofJump g path j = .ok (.jump name branches) ↔
    name = j.name ∧ j.name ∉ path ∧ path.length < Tree.maxDepth ∧
      List.Forall₂ (fun t e => branch g (j.name :: path) j t = .ok e) j.targets branches := by
  rw [ofJump_eq]
  by_cases hpath : j.name ∈ path
  · simp [hpath]
  rw [if_neg hpath]
  by_cases hdepth : Tree.maxDepth ≤ path.length
  · simp [hdepth, not_lt.2 hdepth]
  rw [if_neg hdepth, Except.map_eq_ok]
  constructor
  · rintro ⟨bs, hbs, h⟩
    cases h
    exact ⟨rfl, hpath, not_le.1 hdepth, Except.mapM_eq_ok.1 hbs⟩
  · rintro ⟨rfl, -, -, hbs⟩
    exact ⟨branches, Except.mapM_eq_ok.2 hbs, rfl⟩

theorem ofJump_ne_terminator : ofJump g path j ≠ .ok (.leaf .terminator) := by
  intro h
  rw [ofJump_eq] at h
  split at h
  · cases h
  split at h
  · cases h
  · obtain ⟨bs, -, h⟩ := Except.map_eq_ok.1 h
    cases h

/-- Below a jump there is the end of the sequence, or the subtree of a jump it leads to. -/
theorem sub_of_mem (h : ofJump g path j = .ok (.jump name branches)) (he : e ∈ branches) :
    e.2 = .leaf .terminator ∨ ∃ k, g.Step j k ∧ ofJump g (j.name :: path) k = .ok e.2 := by
  obtain ⟨-, -, -, hall⟩ := ofJump_eq_jump.1 h
  obtain ⟨t, ht, hbranch⟩ := forall₂_exists_left hall he
  obtain ⟨-, ⟨-, hleaf⟩ | ⟨k, hk, hsub⟩⟩ := branch_eq_ok.1 hbranch
  · exact .inl hleaf
  · exact .inr ⟨k, ⟨t, ht, hk⟩, hsub⟩

theorem exists_sub_of_step (h : ofJump g path j = .ok (.jump name branches)) (hk : g.Step j k) :
    ∃ e ∈ branches, ofJump g (j.name :: path) k = .ok e.2 := by
  obtain ⟨-, -, -, hall⟩ := ofJump_eq_jump.1 h
  obtain ⟨t, ht, hk⟩ := hk
  obtain ⟨e, he, hbranch⟩ := forall₂_exists_right hall ht
  obtain ⟨-, ⟨hnone, -⟩ | ⟨k', hk', hsub⟩⟩ := branch_eq_ok.1 hbranch
  · cases hk.symm.trans hnone
  · cases hk.symm.trans hk'
    exact ⟨e, he, hsub⟩

/-! ## Finished subtrees -/

/-- Every way down ends the sequence: there is no loop and no cut. -/
inductive Finished : Unfolded → Prop
  | terminator : Finished (.leaf .terminator)
  | jump {name : String} {branches : List (String × Unfolded)} (h : ∀ e ∈ branches, Finished e.2) :
      Finished (.jump name branches)

/-- A jump of the name is in the tree. -/
inductive Has (name : String) : Unfolded → Prop
  | root {branches : List (String × Unfolded)} : Has name (.jump name branches)
  | branch {other : String} {branches : List (String × Unfolded)} {e : String × Unfolded} (he : e ∈ branches)
      (h : Has name e.2) : Has name (.jump other branches)

mutual

/-- The most jumps on a way down. -/
def depth : Unfolded → Nat
  | leaf _ => 0
  | jump _ branches => depthBelow branches + 1

def depthBelow : List (String × Unfolded) → Nat
  | [] => 0
  | (_, u) :: rest => max u.depth (depthBelow rest)

end

theorem depth_le_depthBelow (he : e ∈ branches) : e.2.depth ≤ depthBelow branches := by
  induction branches with
  | nil => cases he
  | cons e' branches ih =>
    obtain ⟨label, u⟩ := e'
    rw [depthBelow]
    rcases List.mem_cons.1 he with rfl | he
    · exact le_max_left _ _
    · exact (ih he).trans (le_max_right _ _)

theorem depthBelow_append (us vs : List (String × Unfolded)) :
    depthBelow (us ++ vs) = max (depthBelow us) (depthBelow vs) := by
  induction us with
  | nil => rw [List.nil_append, depthBelow, Nat.zero_max]
  | cons e us ih => rw [List.cons_append, depthBelow, depthBelow, ih, Nat.max_assoc]

/-- A jump of a subtree is not on the path to it. -/
theorem not_mem_of_has (hu : u.Has name) : ∀ {path j}, ofJump g path j = .ok u → name ∉ path := by
  induction hu with
  | root =>
    intro path j h
    obtain ⟨rfl, hpath, -⟩ := ofJump_eq_jump.1 h
    exact hpath
  | branch he hsub ih =>
    intro path j h
    rcases sub_of_mem h he with hleaf | ⟨k, -, hk⟩
    · rw [hleaf] at hsub
      cases hsub
    · exact fun hmem => ih hk (List.mem_cons_of_mem _ hmem)

/-- A jump of a subtree is met on a walk from its root. -/
theorem exists_walk_of_has (hu : u.Has name) : ∀ {path j}, j ∈ g.jumps → ofJump g path j = .ok u →
    ∃ k ∈ g.jumps, k.name = name ∧ Relation.ReflTransGen g.Step j k := by
  induction hu with
  | root =>
    intro path j hj h
    exact ⟨j, hj, (ofJump_eq_jump.1 h).1.symm, .refl⟩
  | branch he hsub ih =>
    intro path j hj h
    rcases sub_of_mem h he with hleaf | ⟨k, hstep, hk⟩
    · rw [hleaf] at hsub
      cases hsub
    · obtain ⟨k', hk', hname, hwalk⟩ := ih hstep.mem hk
      exact ⟨k', hk', hname, .head hstep hwalk⟩

/-- A finished subtree is the same on every path that has room for it and none of its jumps. -/
theorem ofJump_of_finished (hu : u.Finished) : ∀ {path path' j}, ofJump g path j = .ok u →
    path'.length + u.depth ≤ Tree.maxDepth → (∀ name ∈ path', ¬ u.Has name) → ofJump g path' j = .ok u := by
  induction hu with
  | terminator =>
    intro path path' j h
    exact absurd h ofJump_ne_terminator
  | @jump name branches hsub ih =>
    intro path path' j h hdepth hfree
    obtain ⟨rfl, hpath, -, hall⟩ := ofJump_eq_jump.1 h
    rw [depth] at hdepth
    refine ofJump_eq_jump.2 ⟨rfl, fun hmem => hfree _ hmem .root, by omega, ?_⟩
    have hmem : List.Forall₂ (fun e t => e ∈ branches ∧ branch g (j.name :: path) j t = .ok e) branches j.targets :=
      (List.forall₂_and_left _ _).2 ⟨fun _ he => he, hall.flip⟩
    refine hmem.flip.imp fun t e ⟨he, hbranch⟩ => ?_
    obtain ⟨hlabel, hend | ⟨k, hk, hrest⟩⟩ := branch_eq_ok.1 hbranch
    · exact branch_eq_ok.2 ⟨hlabel, .inl hend⟩
    · refine branch_eq_ok.2 ⟨hlabel, .inr ⟨k, hk, ih e he hrest ?_ fun n hn hhas => ?_⟩⟩
      · have := depth_le_depthBelow he
        rw [List.length_cons]
        omega
      · rcases List.mem_cons.1 hn with rfl | hn
        · exact not_mem_of_has hhas hrest List.mem_cons_self
        · exact hfree n hn (.branch he hhas)

/-- All walks from the root of a finished subtree come to an end. -/
theorem acc_of_finished (hu : u.Finished) : ∀ {path j}, ofJump g path j = .ok u → Acc (fun k j => g.Step j k) j := by
  induction hu with
  | terminator =>
    intro path j h
    exact absurd h ofJump_ne_terminator
  | jump hsub ih =>
    intro path j h
    refine .intro j fun k hk => ?_
    obtain ⟨e, he, hrest⟩ := exists_sub_of_step h hk
    exact ih e he hrest

end Unfolded

/-! ## Two recursions side by side -/

/-- The same fault, or values that are related. -/
inductive Except.Rel {α β : Type} (R : α → β → Prop) : Except Fault α → Except Fault β → Prop
  | error (f : Fault) : Rel R (.error f) (.error f)
  | ok {a : α} {b : β} (h : R a b) : Rel R (.ok a) (.ok b)

namespace Except.Rel

variable {α β γ δ : Type} {R : α → β → Prop} {S : γ → δ → Prop} {x : Except Fault α} {y : Except Fault β}

theorem bind {f : α → Except Fault γ} {f' : β → Except Fault δ} (h : Rel R x y)
    (hf : ∀ a b, R a b → Rel S (f a) (f' b)) : Rel S (x >>= f) (y >>= f') := by
  cases h with
  | error e => exact .error e
  | ok hab => exact hf _ _ hab

theorem attach (h : Rel R x y) : Rel (fun a b => x = .ok a ∧ R a b) x y := by
  cases h with
  | error e => exact .error e
  | ok hab => exact .ok ⟨rfl, hab⟩

end Except.Rel

namespace Tree

variable {g : JumpGraph} {levels : Nat} {path : List String} {j : TimedJump} {e : Expansion} {u : Unfolded}
  {b : Builder}

/-- A finished subtree, written out, is `u`. -/
structure Expansion.Shows (e : Expansion) (u : Unfolded) : Prop where
  tree : e.tree.unfold = u
  height : e.tree.isJump = true → u.depth = e.height + 1
  closed : e.closed = true ↔ u.Finished

/-- The height of a jump over its branches is the depth below it. -/
theorem Expansion.Shows.max_height (h : e.Shows u) (height : Nat) :
    (if e.tree.isJump then max height (e.height + 1) else height) = max height u.depth := by
  split
  · rename_i hjump
    rw [h.height hjump]
  · rename_i hjump
    have hleaf : u.depth = 0 := by
      rw [← h.tree]
      cases htree : e.tree with
      | leaf l => rfl
      | jump serial name branches =>
        rw [htree] at hjump
        exact absurd rfl hjump
    rw [hleaf, Nat.max_zero]

theorem shows_leaf (b : Builder) (l : Leaf) : (b.leaf l).1.Shows (.leaf l) where
  tree := rfl
  height h := by cases h
  closed := by
    change (l == .terminator) = true ↔ _
    rw [beq_iff_eq]
    constructor
    · rintro rfl
      exact .terminator
    · intro h
      cases h
      rfl

/-- What is remembered of a jump is what the plain recursion gives for it on some path, and is finished. -/
def Builder.Remembers (g : JumpGraph) (b : Builder) : Prop :=
  ∀ x ∈ b.shared, ∃ j ∈ g.jumps, j.name = x.1 ∧ ∃ path u, Unfolded.ofJump g path j = .ok u ∧ u.Finished ∧ x.2.Shows u

/-- The jumps of a path lead to `j`. -/
def Behind (g : JumpGraph) (path : List String) (j : TimedJump) : Prop :=
  ∀ name ∈ path, ∃ k ∈ g.jumps, k.name = name ∧ Relation.TransGen g.Step k j

theorem Behind.cons (h : Behind g path j) (hj : j ∈ g.jumps) {k : TimedJump} (hk : g.Step j k) :
    Behind g (j.name :: path) k := by
  refine List.forall_mem_cons.2 ⟨⟨j, hj, rfl, .single hk⟩, fun name hname => ?_⟩
  obtain ⟨k', hk', hname, hwalk⟩ := h name hname
  exact ⟨k', hk', hname, hwalk.tail hk⟩

theorem isJump_of_unfold {t : Tree} {name : String} {branches : List (String × Unfolded)}
    (h : t.unfold = .jump name branches) : t.isJump = true := by
  cases t with
  | leaf l => cases h
  | jump serial name branches => rfl

/-- What is remembered of a jump may stand on any path to it that has room. -/
theorem Builder.Remembers.exists_ofJump (hb : b.Remembers g) (hnames : (g.jumps.map TimedJump.name).Nodup)
    (hj : j ∈ g.jumps) (hbehind : Behind g path j) (he : b.shared? j.name = some e)
    (hroom : path.length + e.height < maxDepth) : ∃ u, Unfolded.ofJump g path j = .ok u ∧ e.Shows u := by
  obtain ⟨j', hj', hname, path', u, hu, hfinished, hshows⟩ := hb _ (mem_of_shared? he)
  cases List.inj_on_of_nodup_map hnames hj' hj hname
  have hjump : e.tree.isJump = true := by
    cases hfinished with
    | terminator => exact absurd hu Unfolded.ofJump_ne_terminator
    | jump _ => exact isJump_of_unfold hshows.tree
  refine ⟨u, Unfolded.ofJump_of_finished hfinished hu ?_ fun name hmem hhas => ?_, hshows⟩
  · have hdepth : u.depth = e.height + 1 := hshows.height hjump
    omega
  · -- a jump of the subtree that is also behind it would lead in a circle
    obtain ⟨k, hk, rfl, hback⟩ := hbehind name hmem
    obtain ⟨k', hk', hsame, hwalk⟩ := Unfolded.exists_walk_of_has hhas hj hu
    cases List.inj_on_of_nodup_map hnames hk' hk hsame
    exact not_transGen_of_acc (Unfolded.acc_of_finished hfinished hu) (.trans_right hwalk hback)

/-- The branches of a jump that have been joined to `acc`, written out. -/
structure Joins (g : JumpGraph) (acc : List (String × Tree) × Nat × Bool) (us : List (String × Unfolded))
    (r : (List (String × Tree) × Nat × Bool) × Builder) : Prop where
  branches : unfoldBranches r.1.1 = unfoldBranches acc.1 ++ us
  height : r.1.2.1 = max acc.2.1 (Unfolded.depthBelow us)
  closed : r.1.2.2 = true ↔ acc.2.2 = true ∧ ∀ e ∈ us, e.2.Finished
  remembers : r.2.Remembers g

theorem joins_join {acc : List (String × Tree) × Nat × Bool} {label : String} (h : e.Shows u) (hb : b.Remembers g) :
    Joins g acc [(label, u)] (e.join label acc.1 acc.2.1 acc.2.2, b) where
  branches := by
    simp only [Expansion.join, unfoldBranches_append, unfoldBranches, h.tree]
  height := by
    simp only [Expansion.join, h.max_height, Unfolded.depthBelow, Nat.max_zero]
  closed := by
    simp only [Expansion.join, Bool.and_eq_true, h.closed, List.mem_singleton, forall_eq]
  remembers := hb

theorem Joins.append {acc : List (String × Tree) × Nat × Bool} {us vs : List (String × Unfolded)}
    {r r' : (List (String × Tree) × Nat × Bool) × Builder} (h : Joins g acc us r) (h' : Joins g r.1 vs r') :
    Joins g acc (us ++ vs) r' where
  branches := by rw [h'.branches, h.branches, List.append_assoc]
  height := by rw [h'.height, h.height, Unfolded.depthBelow_append, Nat.max_assoc]
  closed := by
    rw [h'.closed, h.closed, and_assoc, List.forall_mem_append]
  remembers := h'.remembers

/-- The jump over its branches, and what is remembered then. -/
theorem Joins.shows_and_remembers {us : List (String × Unfolded)} {branches : List (String × Tree)}
    {height serial : Nat} {closed : Bool} (h : Joins g ([], 0, true) us ((branches, height, closed), b))
    (hj : j ∈ g.jumps) (hu : Unfolded.ofJump g path j = .ok (.jump j.name us)) :
    let e : Expansion := ⟨.jump serial j.name branches, height, closed⟩
    e.Shows (.jump j.name us) ∧
      (if closed then { b with shared := (j.name, e) :: b.shared } else b : Builder).Remembers g := by
  intro e
  have hshows : e.Shows (.jump j.name us) := by
    refine ⟨?_, fun _ => ?_, ?_⟩
    · change Unfolded.jump j.name (unfoldBranches branches) = _
      rw [h.branches]
      rfl
    · rw [Unfolded.depth, show e.height = _ from h.height, Nat.zero_max]
    · rw [show (e.closed = true) = _ from rfl, h.closed]
      constructor
      · rintro ⟨-, hall⟩
        exact .jump hall
      · intro hfinished
        cases hfinished with
        | jump hall => exact ⟨rfl, hall⟩
  refine ⟨hshows, ?_⟩
  split
  · rename_i hclosed
    exact List.forall_mem_cons.2 ⟨⟨j, hj, rfl, path, _, hu, hshows.closed.1 hclosed, hshows⟩, h.remembers⟩
  · exact h.remembers

theorem rel_foldlM {f : (List (String × Tree) × Nat × Bool) × Builder → Target →
      Except Fault ((List (String × Tree) × Nat × Bool) × Builder)} {ts : List Target}
    (hf : ∀ t ∈ ts, ∀ acc, acc.2.Remembers g →
      Except.Rel (fun x r => Joins g acc.1 [x] r) (Unfolded.branch g path j t) (f acc t)) :
    ∀ acc, acc.2.Remembers g →
      Except.Rel (fun us r => Joins g acc.1 us r) (ts.mapM (Unfolded.branch g path j)) (ts.foldlM f acc) := by
  induction ts with
  | nil =>
    intro acc hacc
    exact .ok ⟨(List.append_nil _).symm, (Nat.max_zero _).symm, by simp, hacc⟩
  | cons t ts ih =>
    intro acc hacc
    rw [List.mapM_cons, List.foldlM_cons]
    refine (hf t List.mem_cons_self acc hacc).bind fun x r hx => ?_
    have hrest := ih (fun t ht => hf t (List.mem_cons_of_mem _ ht)) r hx.remembers
    generalize ts.mapM (Unfolded.branch g path j) = us at hrest ⊢
    generalize ts.foldlM f r = r' at hrest ⊢
    cases hrest with
    | error f => exact .error f
    | ok hus => exact .ok (hx.append hus)

/-- One branch of a jump, where the subtrees of the jumps it leads to agree. -/
theorem rel_branch {acc : (List (String × Tree) × Nat × Bool) × Builder} {t : Target} (ht : t ∈ j.targets)
    (hacc : acc.2.Remembers g)
    (ih : ∀ k b, g.Step j k → b.Remembers g → Except.Rel (fun u r => r.1.Shows u ∧ r.2.Remembers g)
      (Unfolded.ofJump g (j.name :: path) k) (expand g levels (j.name :: path) k b)) :
    Except.Rel (fun x r => Joins g acc.1 [x] r) (Unfolded.branch g (j.name :: path) j t)
      (branch g levels path j acc t) := by
  unfold Unfolded.branch branch
  cases hnext : g.successor j t with
  | error f => exact .error f
  | ok next =>
    cases next with
    | none => exact .ok (joins_join (shows_leaf acc.2 .terminator) hacc)
    | some k =>
      refine (ih k acc.2 ⟨t, ht, hnext⟩ hacc).bind fun u r hr => ?_
      exact .ok (joins_join hr.1 hr.2)

/-- The recursion with a memory and the plain one agree, whatever is remembered. -/
theorem rel_expand (hnames : (g.jumps.map TimedJump.name).Nodup) : ∀ levels path j b, levels + path.length = maxDepth →
    j ∈ g.jumps → Behind g path j → b.Remembers g → Except.Rel (fun u r => r.1.Shows u ∧ r.2.Remembers g)
      (Unfolded.ofJump g path j) (expand g levels path j b) := by
  intro levels
  induction levels using Nat.strong_induction_on with
  | _ levels ih =>
  intro path j b hlevels hj hbehind hb
  unfold expand
  split
  · rename_i hpath
    rw [List.contains_iff_mem] at hpath
    rw [Unfolded.ofJump_eq, if_pos hpath]
    exact .ok ⟨shows_leaf b _, hb⟩
  rename_i hpath
  rw [List.contains_iff_mem] at hpath
  split
  · rename_i e he
    obtain ⟨he, hheight⟩ := Option.filter_eq_some_iff.1 he
    have hroom : path.length + e.height < maxDepth := by
      have := of_decide_eq_true hheight
      omega
    obtain ⟨u, hu, hshows⟩ := hb.exists_ofJump hnames hj hbehind he hroom
    rw [hu]
    exact .ok ⟨hshows, hb⟩
  rw [Unfolded.ofJump_eq, if_neg hpath]
  cases levels with
  | zero =>
    rw [if_pos (by omega)]
    exact .ok ⟨shows_leaf b _, hb⟩
  | succ levels =>
    rw [if_neg (by omega)]
    have hbranch : ∀ t ∈ j.targets, ∀ acc, acc.2.Remembers g → Except.Rel (fun x r => Joins g acc.1 [x] r)
        (Unfolded.branch g (j.name :: path) j t) (branch g levels path j acc t) := by
      intro t ht acc hacc
      refine rel_branch ht hacc fun k b hk hb => ?_
      exact ih levels (Nat.lt_succ_self _) (j.name :: path) k b (by rw [List.length_cons]; omega) hk.mem
        (hbehind.cons hj hk) hb
    have hall := rel_foldlM hbranch (([], 0, true), { b with count := b.count + 1 }) hb
    refine hall.attach.bind fun us r hr => ?_
    obtain ⟨⟨branches, height, closed⟩, b'⟩ := r
    have hu : Unfolded.ofJump g path j = .ok (.jump j.name us) := by
      rw [Unfolded.ofJump_eq, if_neg hpath, if_neg (by omega), hr.1]
      rfl
    exact .ok (hr.2.shows_and_remembers hj hu)

theorem rel_build (hnames : (g.jumps.map TimedJump.name).Nodup) :
    Except.Rel (fun u r => r.1.unfold = u) (Unfolded.ofGraph g) (build g) := by
  unfold Unfolded.ofGraph build
  cases hjumps : g.jumps with
  | nil => exact .ok rfl
  | cons first rest =>
    have hfirst : first ∈ g.jumps := by
      rw [hjumps]
      exact List.mem_cons_self
    have hrel := rel_expand hnames maxDepth [] first ⟨0, []⟩ rfl hfirst nofun nofun
    change Except.Rel _ (Unfolded.ofJump g [] first) (expand g maxDepth [] first ⟨0, []⟩ >>= _)
    rw [← bind_pure (Unfolded.ofJump g [] first)]
    exact hrel.bind fun u r hr => .ok hr.1.tree

end Tree

/-! ## Trees that are there -/

theorem JumpGraph.exists_successor {g : JumpGraph} {j : TimedJump} {t : Target} (h : g.Resolves j t) :
    ∃ next, g.successor j t = .ok next := by
  cases t with
  | terminate => exact ⟨_, rfl⟩
  | pass => exact ⟨_, rfl⟩
  | destination r =>
    cases r with
    | jump name =>
      obtain ⟨k, hk, hname⟩ := h
      have hfind : (g.find? name).isSome = true := by
        rw [find?, List.find?_isSome]
        exact ⟨k, List.mem_reverse.2 hk, by simpa using hname⟩
      obtain ⟨k', hk'⟩ := Option.isSome_iff_exists.1 hfind
      exact ⟨some k', by rw [successor, hk']⟩
    | start w | finish w | control w =>
      obtain ⟨time, htime⟩ := h
      exact ⟨g.nextAfter time, Except.bind_eq_ok.2 ⟨time, htime, rfl⟩⟩

/-- The plain recursion gives a tree if all destinations are there. -/
theorem Unfolded.exists_ofJump {g : JumpGraph} (hres : ∀ j ∈ g.jumps, ∀ r ∈ j.ladder, g.Resolves j r.target) :
    ∀ n path j, Tree.maxDepth ≤ path.length + n → j ∈ g.jumps → ∃ u, ofJump g path j = .ok u := by
  intro n
  induction n with
  | zero =>
    intro path j hlevels hj
    rw [ofJump_eq]
    split
    · exact ⟨_, rfl⟩
    · rw [if_pos (by omega)]
      exact ⟨_, rfl⟩
  | succ n ih =>
    intro path j hlevels hj
    rw [ofJump_eq]
    split
    · exact ⟨_, rfl⟩
    split
    · exact ⟨_, rfl⟩
    cases hbranches : j.targets.mapM (branch g (j.name :: path) j) with
    | ok branches => exact ⟨_, rfl⟩
    | error f =>
      obtain ⟨t, ht, herror⟩ := Except.exists_of_mapM_eq_error hbranches
      obtain ⟨r, hr, rfl⟩ := JumpGraph.mem_targets.1 ht
      obtain ⟨next, hnext⟩ := JumpGraph.exists_successor (hres j hj r hr)
      have hbranch : ∃ e, branch g (j.name :: path) j r.target = .ok e := by
        cases next with
        | none => exact ⟨(_, _), branch_eq_ok.2 ⟨rfl, .inl ⟨hnext, rfl⟩⟩⟩
        | some k =>
          obtain ⟨u, hu⟩ := ih (j.name :: path) k (by rw [List.length_cons]; omega) (JumpGraph.mem_of_successor hnext)
          exact ⟨(_, u), branch_eq_ok.2 ⟨rfl, .inr ⟨k, hnext, hu⟩⟩⟩
      obtain ⟨e, he⟩ := hbranch
      cases he.symm.trans herror

theorem Unfolded.exists_ofGraph {g : JumpGraph} (hres : ∀ j ∈ g.jumps, ∀ r ∈ j.ladder, g.Resolves j r.target) :
    ∃ u, ofGraph g = .ok u := by
  unfold ofGraph
  split
  · exact ⟨_, rfl⟩
  · rename_i first rest hjumps
    refine exists_ofJump hres Tree.maxDepth [] first (by simp) ?_
    rw [hjumps]
    exact List.mem_cons_self

namespace JumpGraph

variable {t : Timeline} {g : JumpGraph}

/-- The jumps can be put in order unless a time is not there or the conditions of a jump are at fault. -/
theorem exists_of_ofTimeline_eq_error {f : Fault} (h : ofTimeline t = .error f)
    (htimes : ∀ e ∈ t.sequence.jumps, ∃ time, t.jumpTime e.1.name = .ok time) :
    ∃ e ∈ t.sequence.jumps, e.1.mergedLadder = .error f := by
  rcases Except.bind_eq_error.1 h with hjs | ⟨js, -, hpure⟩
  · obtain ⟨e, he, herror⟩ := Except.exists_of_mapM_eq_error hjs
    obtain ⟨time, htime⟩ := htimes e he
    refine ⟨e, he, ?_⟩
    simp only [htime] at herror
    cases hl : e.1.mergedLadder with
    | ok l =>
      rw [hl] at herror
      cases herror
    | error f'' =>
      rw [hl] at herror
      cases herror
      rfl
  · cases hpure

/-- A destination that has a time is there. -/
theorem resolves_of_ofTimeline (hg : ofTimeline t = .ok g)
    (hdest : ∀ e ∈ t.sequence.jumps, ∀ l, e.1.mergedLadder = .ok l → ∀ r ∈ l, ∀ d, r.target = .destination d →
      ∃ time, t.timeOf d e.1.name = .ok time) : ∀ j ∈ g.jumps, ∀ r ∈ j.ladder, g.Resolves j r.target := by
  obtain ⟨ht, js, hperm, hall⟩ := perm_of_ofTimeline hg
  intro j hj r hr
  obtain ⟨e, he, hname, -, hladder⟩ := forall₂_exists_left hall (hperm.mem_iff.1 hj)
  cases htarget : r.target with
  | terminate => trivial
  | pass => trivial
  | destination d =>
    obtain ⟨time, htime⟩ := hdest e he _ hladder r hr d htarget
    cases d with
    | jump name =>
      have hfate := t.fate_timeOf (.jump name) e.1.name
      rw [htime] at hfate
      cases hfate with
      | found hx =>
        obtain ⟨e', he', rfl⟩ := hx.exists_jump
        obtain ⟨k, hk, hkname, -⟩ := forall₂_exists_right hall he'
        exact ⟨k, hperm.mem_iff.2 hk, hkname⟩
    | start w | finish w | control w =>
      rw [← hname, ← ht] at htime
      exact ⟨time, htime⟩

end JumpGraph

namespace Tree

/-- The tree of a sequence whose jumps have names of their own, times and destinations: unless the conditions of a jump
are at fault there is one, and with its shared subtrees written out it is that of the plain recursion, in which each
jump is expanded on each path to it. -/
theorem build_unfolds {t : Timeline} (hnames : (t.sequence.jumps.map fun e => e.1.name).Nodup)
    (htimes : ∀ e ∈ t.sequence.jumps, ∃ time, t.jumpTime e.1.name = .ok time)
    (hdest : ∀ e ∈ t.sequence.jumps, ∀ l, e.1.mergedLadder = .ok l → ∀ r ∈ l, ∀ d, r.target = .destination d →
      ∃ time, t.timeOf d e.1.name = .ok time) :
    (∃ e ∈ t.sequence.jumps, ∃ f, e.1.mergedLadder = .error f ∧ JumpGraph.ofTimeline t = .error f) ∨
      ∃ g tree count, JumpGraph.ofTimeline t = .ok g ∧ build g = .ok (tree, count) ∧
        Unfolded.ofGraph g = .ok tree.unfold := by
  cases hg : JumpGraph.ofTimeline t with
  | error f =>
    obtain ⟨e, he, hladder⟩ := JumpGraph.exists_of_ofTimeline_eq_error hg htimes
    exact .inl ⟨e, he, f, hladder, rfl⟩
  | ok g =>
    refine .inr ⟨g, ?_⟩
    have hrel := rel_build (JumpGraph.nodup_of_ofTimeline hg hnames)
    obtain ⟨u, hu⟩ := Unfolded.exists_ofGraph (JumpGraph.resolves_of_ofTimeline hg hdest)
    rw [hu] at hrel
    generalize build g = result at hrel
    cases hrel with
    | @ok _ r hr => exact ⟨r.1, r.2, rfl, rfl, by rw [hu, hr]⟩

/-- A jump that both branches of the first one come to, and in between one that can go back to it. -/
def rejoining : Timeline where
  sequence := {
    name := "rejoining", length := 40, shots := 1, variants := 1, hardware := default, controls := []
    channels := [⟨"detector", [⟨"gate", .absolute 3, .absolute 5⟩], .control [
      ⟨"first", .absolute 9, .branch "gate" [.atLeast 3 (.destination (.jump "last")), .otherwise .pass]⟩,
      ⟨"again", .absolute 15, .branch "gate" [.atLeast 3 (.destination (.start "gate")), .otherwise .pass]⟩,
      ⟨"last", .absolute 20, .terminate⟩]⟩] }
  values := []

theorem unfolds_rejoining : ∃ g tree count, JumpGraph.ofTimeline rejoining = .ok g ∧ build g = .ok (tree, count) ∧
    Unfolded.ofGraph g = .ok tree.unfold := by
  have hok : ∀ {α : Type} {x : Except Fault α}, x.isOk = true → ∃ a, x = .ok a := by
    intro α x h
    cases x with
    | ok a => exact ⟨a, rfl⟩
    | error f => cases h
  have hnames : (rejoining.sequence.jumps.map fun e => e.1.name).Nodup := by decide
  have htimes : ∀ e ∈ rejoining.sequence.jumps, (rejoining.jumpTime e.1.name).isOk = true := by decide +kernel
  have hladders : ∀ e ∈ rejoining.sequence.jumps, e.1.mergedLadder.isOk = true := by decide +kernel
  have hdest : ∀ e ∈ rejoining.sequence.jumps, ∀ d ∈ [.jump "last", .start "gate"],
      (rejoining.timeOf d e.1.name).isOk = true := by decide +kernel
  have htargets : ∀ e ∈ rejoining.sequence.jumps, ∀ l ∈ e.1.mergedLadder.toOption, ∀ r ∈ l,
      r.target ∈ [.terminate, .pass, .destination (.jump "last"), .destination (.start "gate")] := by decide +kernel
  have hplaces : ∀ e ∈ rejoining.sequence.jumps, ∀ l, e.1.mergedLadder = .ok l → ∀ r ∈ l, ∀ d,
      r.target = .destination d → ∃ time, rejoining.timeOf d e.1.name = .ok time := by
    intro e he l hl r hr d hd
    have htarget := htargets e he l (by rw [hl]; rfl) r hr
    rw [hd] at htarget
    exact hok (hdest e he d (by simpa using htarget))
  rcases build_unfolds hnames (fun e he => hok (htimes e he)) hplaces with ⟨e, he, f, hf, -⟩ | hall
  · obtain ⟨l, hl⟩ := hok (hladders e he)
    cases hl.symm.trans hf
  · exact hall

end Tree

end PulseSequencer
