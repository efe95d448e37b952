import PulseSequencer.Proofs.Sharing

/-!
# The size of a reachability tree

Where no walk leads in a circle or is too long to fit, every subtree can be shared, and it is: each jump that is reached
has one node, however many walks there are to it.

* `JumpGraph.Reached`, `JumpGraph.Acyclic`, `JumpGraph.PathsWithin` : the jumps that are reached, and the paths to them;
* `JumpGraph.Acyclic.bounded` : in a graph without circles, a bound for paths is one for walks;
* `Tree.Expansion.Complete`, `Tree.Builder.Holds` : a memory in which all subtrees refer to each other;
* `Tree.exists_expands` : a jump is expanded if and only if it is not in the memory yet, and counts once;
* `Tree.build_linear` : the number of nodes.
-/

namespace PulseSequencer

theorem TimedJump.nodup_targets (j : TimedJump) : j.targets.Nodup := by
  have hfold : ∀ (l : Ladder) (ts : List Target), ts.Nodup →
      (l.foldl (fun ts r => if ts.contains r.target then ts else ts ++ [r.target]) ts).Nodup := by
    intro l
    induction l with
    | nil => exact fun _ h => h
    | cons r l ih =>
      intro ts hts
      rw [List.foldl_cons]
      refine ih _ ?_
      split
      · exact hts
      · rename_i hr
        rw [List.contains_iff_mem] at hr
        rw [← List.concat_eq_append]
        exact hts.concat hr
  exact hfold j.ladder [] List.nodup_nil

namespace JumpGraph

/-- A walk from the first jump comes to `j`. -/
def Reached (g : JumpGraph) (j : TimedJump) : Prop := ∃ first ∈ g.jumps.head?, Relation.ReflTransGen g.Step first j

/-- No jump that is reached leads back to itself. -/
def Acyclic (g : JumpGraph) : Prop := ∀ j, g.Reached j → ¬ Relation.TransGen g.Step j j

/-- No path without repetition from the first jump has more than `n` jumps. -/
def PathsWithin (g : JumpGraph) (n : Nat) : Prop :=
  ∀ first ∈ g.jumps.head?, ∀ p, (first :: p).IsChain g.Step → (first :: p).Nodup → (first :: p).length ≤ n

/-- No walk from the jump, with or without repetition, has more than `n` jumps. -/
def Bounded (g : JumpGraph) (n : Nat) (j : TimedJump) : Prop := ∀ p, (j :: p).IsChain g.Step → p.length < n

variable {g : JumpGraph} {n : Nat} {j k first : TimedJump}

theorem Bounded.step (h : g.Bounded (n + 1) j) (hk : g.Step j k) : g.Bounded n k := fun p hp =>
  Nat.lt_of_succ_lt_succ (h (k :: p) (List.isChain_cons_cons.2 ⟨hk, hp⟩))

theorem not_bounded_zero : ¬ g.Bounded 0 j := fun h => Nat.not_lt_zero _ (h [] (List.isChain_singleton j))

theorem Bounded.acc : ∀ {j : TimedJump}, g.Bounded n j → Acc (fun k j => g.Step j k) j := by
  induction n with
  | zero => exact fun h => absurd h not_bounded_zero
  | succ n ih => exact fun h => .intro _ fun k hk => ih (h.step hk)

theorem Reached.mem (h : g.Reached j) : j ∈ g.jumps := by
  obtain ⟨first, hfirst, hwalk⟩ := h
  induction hwalk with
  | refl => exact List.mem_of_mem_head? hfirst
  | tail _ hstep => exact hstep.mem

theorem pairwise_of_isChain {p : List TimedJump} (hp : p.IsChain g.Step) : p.Pairwise (Relation.TransGen g.Step) :=
  List.isChain_iff_pairwise.1 (hp.imp fun _ _ hstep => .single hstep)

theorem reached_of_isChain {p : List TimedJump} (hfirst : first ∈ g.jumps.head?) (hp : (first :: p).IsChain g.Step) :
    ∀ j ∈ first :: p, g.Reached j := by
  refine List.forall_mem_cons.2 ⟨⟨first, hfirst, .refl⟩, fun j hj => ⟨first, hfirst, ?_⟩⟩
  exact ((List.pairwise_cons.1 (pairwise_of_isChain hp)).1 j hj).to_reflTransGen

/-- A walk that repeats a jump would lead in a circle. -/
theorem Acyclic.bounded (h : g.Acyclic) (hpaths : g.PathsWithin n) (hfirst : first ∈ g.jumps.head?) :
    g.Bounded n first := by
  intro p hp
  have hnodup : (first :: p).Nodup := by
    refine (pairwise_of_isChain hp).imp_of_mem fun {j k} hj _ hwalk heq => ?_
    rw [← heq] at hwalk
    exact h j (reached_of_isChain hfirst hp j hj) hwalk
  exact hpaths first hfirst p hp hnodup

/-- If every target leads to a later time, then no walk comes back. -/
theorem acyclic_of_forward (h : ∀ j ∈ g.jumps, ∀ t ∈ j.targets, ∀ k, g.successor j t = .ok (some k) → j.time < k.time) :
    g.Acyclic := by
  intro j hj hcircle
  have hlater : ∀ k, Relation.TransGen g.Step j k → j.time < k.time := by
    intro k hwalk
    induction hwalk with
    | single hstep =>
      obtain ⟨t, ht, hk⟩ := hstep
      exact h j hj.mem t ht _ hk
    | @tail k k' hwalk hstep ih =>
      obtain ⟨first, hfirst, hstart⟩ := hj
      obtain ⟨t, ht, hk⟩ := hstep
      have hmem : k ∈ g.jumps := Reached.mem ⟨first, hfirst, hstart.trans hwalk.to_reflTransGen⟩
      exact Binary64.lt_trans ih (h k hmem t ht _ hk)
  exact Binary64.lt_irrefl _ (hlater j hcircle)

theorem pathsWithin_of_length (h : g.jumps.length ≤ n) : g.PathsWithin n := by
  intro first hfirst p hp hnodup
  have hsub : first :: p ⊆ g.jumps := fun j hj => (reached_of_isChain hfirst hp j hj).mem
  exact (hnodup.subperm hsub).length_le.trans h

/-- The targets of a jump that lead to the end of the sequence. -/
def exits (g : JumpGraph) (j : TimedJump) : List Target := j.targets.filter fun t => decide (g.successor j t = .ok none)

/-- The jumps with their exits. -/
def exitsOf (g : JumpGraph) (js : List TimedJump) : List (TimedJump × Target) :=
  js.flatMap fun j => (g.exits j).map (Prod.mk j)

theorem mem_exitsOf {js : List TimedJump} {x : TimedJump × Target} : x ∈ g.exitsOf js ↔
    x.1 ∈ js ∧ (∃ r ∈ x.1.ladder, r.target = x.2) ∧ g.successor x.1 x.2 = .ok none := by
  obtain ⟨j, t⟩ := x
  simp only [exitsOf, exits, List.mem_flatMap, List.mem_map, List.mem_filter, mem_targets, decide_eq_true_eq,
    Prod.mk.injEq]
  constructor
  · rintro ⟨j, hj, t, h, rfl, rfl⟩
    exact ⟨hj, h⟩
  · rintro ⟨hj, h⟩
    exact ⟨j, hj, t, h, rfl, rfl⟩

theorem nodup_exitsOf {js : List TimedJump} (h : js.Nodup) : (g.exitsOf js).Nodup := by
  refine List.nodup_flatMap.2 ⟨fun j _ => (j.nodup_targets.filter _).map (Prod.mk_right_injective j), ?_⟩
  refine h.imp fun {j k} hne x hj hk => ?_
  obtain ⟨t, -, rfl⟩ := List.mem_map.1 hj
  obtain ⟨t', -, heq⟩ := List.mem_map.1 hk
  exact hne (congrArg Prod.fst heq).symm

end JumpGraph

namespace Tree

/-- The tree has a jump node with the given number and name. -/
inductive Node (serial : Nat) (name : String) : Tree → Prop
  | root {branches : List (String × Tree)} : Node serial name (.jump serial name branches)
  | branch {serial' : Nat} {name' : String} {branches : List (String × Tree)} {x : String × Tree} (hx : x ∈ branches)
      (h : Node serial name x.2) : Node serial name (.jump serial' name' branches)

variable {g : JumpGraph} {memo memo' new : List (TimedJump × Expansion)} {levels : Nat} {path : List String}
  {j k : TimedJump} {t : Target} {e : Expansion} {b b' : Builder}

/-! ## The memory -/

/-- The branch of a target is the end of the sequence, or a subtree in the memory. -/
def Refers (g : JumpGraph) (memo : List (TimedJump × Expansion)) (j : TimedJump) (t : Target) (x : String × Tree) :
    Prop :=
  (g.successor j t = .ok none ∧ x.2 = .leaf .terminator) ∨
    ∃ k sub, g.successor j t = .ok (some k) ∧ (k, sub) ∈ memo ∧ x.2 = sub.tree

/-- A subtree without loops and cuts, whose height is that of a walk. -/
structure Expansion.Complete (g : JumpGraph) (memo : List (TimedJump × Expansion)) (j : TimedJump) (e : Expansion) :
    Prop where
  mem : j ∈ g.jumps
  closed : e.closed = true
  walk : ∃ p, (j :: p).IsChain g.Step ∧ p.length = e.height
  tree : ∃ serial branches, e.tree = .jump serial j.name branches ∧ List.Forall₂ (Refers g memo j) j.targets branches

/-- The builder remembers one complete subtree for each jump of the memory. -/
structure Builder.Holds (g : JumpGraph) (memo : List (TimedJump × Expansion)) (b : Builder) : Prop where
  shared : b.shared = memo.map fun x => (x.1.name, x.2)
  nodup : (memo.map Prod.fst).Nodup
  complete : ∀ x ∈ memo, x.2.Complete g memo x.1

theorem Refers.mono (hsub : memo ⊆ memo') {x : String × Tree} (h : Refers g memo j t x) : Refers g memo' j t x := by
  rcases h with h | ⟨k, sub, hk, hmem, htree⟩
  · exact .inl h
  · exact .inr ⟨k, sub, hk, hsub hmem, htree⟩

theorem Expansion.Complete.mono (hsub : memo ⊆ memo') (h : e.Complete g memo j) : e.Complete g memo' j := by
  obtain ⟨serial, branches, htree, hall⟩ := h.tree
  exact ⟨h.mem, h.closed, h.walk, serial, branches, htree, hall.imp fun _ _ hx => hx.mono hsub⟩

theorem Expansion.Complete.isJump (h : e.Complete g memo j) : e.tree.isJump = true := by
  obtain ⟨serial, branches, htree, -⟩ := h.tree
  rw [htree]
  rfl

/-- A complete subtree fits wherever the walks from its jump do. -/
theorem Expansion.Complete.height_lt (h : e.Complete g memo j) (hbound : g.Bounded levels j) : e.height < levels := by
  obtain ⟨p, hp, hlength⟩ := h.walk
  rw [← hlength]
  exact hbound p hp

namespace Builder.Holds

theorem shared?_eq_some (hb : b.Holds g memo) (hnames : (g.jumps.map TimedJump.name).Nodup) (hj : j ∈ g.jumps) :
    b.shared? j.name = some e ↔ (j, e) ∈ memo := by
  have hsound : ∀ e, b.shared? j.name = some e → (j, e) ∈ memo := by
    intro e he
    have hshared := mem_of_shared? he
    rw [hb.shared] at hshared
    obtain ⟨⟨k, e⟩, hk, heq⟩ := List.mem_map.1 hshared
    obtain ⟨hname, rfl⟩ := Prod.mk.inj heq
    cases List.inj_on_of_nodup_map hnames (hb.complete _ hk).mem hj hname
    exact hk
  refine ⟨hsound e, fun hmem => ?_⟩
  have hsome : (b.shared.find? fun x => x.1 == j.name).isSome = true := by
    rw [List.find?_isSome, hb.shared]
    exact ⟨_, List.mem_map_of_mem hmem, beq_self_eq_true _⟩
  obtain ⟨x, hx⟩ := Option.isSome_iff_exists.1 hsome
  have hshared : b.shared? j.name = some x.2 := by rw [shared?, hx, Option.map_some]
  cases List.inj_on_of_nodup_map hb.nodup (hsound _ hshared) hmem rfl
  exact hshared

/-- The branches of a jump in the memory are in the memory. -/
theorem of_step (hb : b.Holds g memo) (hmem : (j, e) ∈ memo) (hk : g.Step j k) :
    ∃ sub, (k, sub) ∈ memo ∧ ∀ serial name, sub.tree.Node serial name → e.tree.Node serial name := by
  obtain ⟨t, ht, hk⟩ := hk
  obtain ⟨serial, branches, htree, hall⟩ := (hb.complete _ hmem).tree
  obtain ⟨x, hx, ⟨hnone, -⟩ | ⟨k', sub, hk', hsub, hxsub⟩⟩ := forall₂_exists_right hall ht
  · cases hk.symm.trans hnone
  · cases hk.symm.trans hk'
    refine ⟨sub, hsub, fun serial name hnode => ?_⟩
    rw [show e.tree = _ from htree]
    exact .branch hx (hxsub ▸ hnode)

theorem of_walk (hb : b.Holds g memo) (hwalk : Relation.ReflTransGen g.Step j k) : ∀ {e}, (j, e) ∈ memo →
    ∃ sub, (k, sub) ∈ memo ∧ ∀ serial name, sub.tree.Node serial name → e.tree.Node serial name := by
  induction hwalk using Relation.ReflTransGen.head_induction_on with
  | refl => exact fun {e} hmem => ⟨e, hmem, fun _ _ h => h⟩
  | head hstep _ ih =>
    intro e hmem
    obtain ⟨sub, hsub, hbelow⟩ := hb.of_step hmem hstep
    obtain ⟨sub', hsub', hbelow'⟩ := ih hsub
    exact ⟨sub', hsub', fun serial name h => hbelow serial name (hbelow' serial name h)⟩

/-- Every node of a subtree in the memory is the root of one. -/
theorem exists_of_node (hb : b.Holds g memo) {serial : Nat} {name : String} {tree : Tree} (h : tree.Node serial name) :
    ∀ {x}, x ∈ memo → x.2.tree = tree → ∃ y ∈ memo, ∃ branches, y.1.name = name ∧
      y.2.tree = .jump serial name branches := by
  induction h with
  | @root branches =>
    intro x hx htree
    obtain ⟨serial', branches', htree', -⟩ := (hb.complete x hx).tree
    cases htree'.symm.trans htree
    exact ⟨x, hx, branches, rfl, htree⟩
  | @branch serial' name' branches y hy hnode ih =>
    intro x hx htree
    obtain ⟨serial'', branches'', htree', hall⟩ := (hb.complete x hx).tree
    cases htree'.symm.trans htree
    obtain ⟨t, -, ⟨-, hleaf⟩ | ⟨k, sub, -, hsub, hysub⟩⟩ := forall₂_exists_left hall hy
    · rw [hleaf] at hnode
      cases hnode
    · exact ih hsub hysub.symm

/-- A jump has the same number wherever it stands. -/
theorem existsUnique_node (hb : b.Holds g memo) (hnames : (g.jumps.map TimedJump.name).Nodup) (hmem : (j, e) ∈ memo)
    (hwalk : Relation.ReflTransGen g.Step j k) : ∃! serial, e.tree.Node serial k.name := by
  obtain ⟨sub, hsub, hbelow⟩ := hb.of_walk hwalk hmem
  obtain ⟨serial, branches, htree, -⟩ := (hb.complete _ hsub).tree
  refine ⟨serial, hbelow _ _ (by rw [htree]; exact .root), fun serial' hnode => ?_⟩
  obtain ⟨y, hy, branches', hname, htree'⟩ := hb.exists_of_node hnode hmem rfl
  have hjump := List.inj_on_of_nodup_map hnames (hb.complete y hy).mem (hb.complete _ hsub).mem hname
  cases List.inj_on_of_nodup_map hb.nodup hy hsub hjump
  cases htree'.symm.trans htree
  rfl

end Builder.Holds

/-! ## Expansion -/

/-- The number of nodes for the given jumps: one for each of them, and one for each of their exits. -/
def size (g : JumpGraph) (memo : List (TimedJump × Expansion)) : Nat :=
  memo.length + (g.exitsOf (memo.map Prod.fst)).length

theorem size_append (g : JumpGraph) (xs ys : List (TimedJump × Expansion)) :
    size g (xs ++ ys) = size g xs + size g ys := by
  simp only [size, JumpGraph.exitsOf, List.map_append, List.flatMap_append, List.length_append]
  omega

/-- The jump has been expanded, with the jumps of `new` that were not in the memory. -/
structure Expands (g : JumpGraph) (memo : List (TimedJump × Expansion)) (j : TimedJump) (b : Builder)
    (new : List (TimedJump × Expansion)) (r : Expansion × Builder) : Prop where
  holds : r.2.Holds g (new ++ memo)
  mem : (j, r.1) ∈ new ++ memo
  after : ∀ x ∈ new, Relation.ReflTransGen g.Step j x.1
  count : r.2.count = b.count + size g new

/-- The branches `xs` of the targets have been joined to `acc`. -/
structure Gathers (g : JumpGraph) (memo : List (TimedJump × Expansion)) (j : TimedJump) (ts : List Target)
    (acc : (List (String × Tree) × Nat × Bool) × Builder) (new : List (TimedJump × Expansion))
    (xs : List (String × Tree)) (r : (List (String × Tree) × Nat × Bool) × Builder) : Prop where
  holds : r.2.Holds g (new ++ memo)
  branches : r.1.1 = acc.1.1 ++ xs
  refers : List.Forall₂ (Refers g (new ++ memo) j) ts xs
  walk : (∃ p, (j :: p).IsChain g.Step ∧ p.length = acc.1.2.1) → ∃ p, (j :: p).IsChain g.Step ∧ p.length = r.1.2.1
  closed : acc.1.2.2 = true → r.1.2.2 = true
  after : ∀ x ∈ new, Relation.TransGen g.Step j x.1
  count : r.2.count = acc.2.count + size g new + (ts.filter fun t => decide (g.successor j t = .ok none)).length

section Gathers

variable {ts us : List Target} {acc r r' : (List (String × Tree) × Nat × Bool) × Builder}
  {new' : List (TimedJump × Expansion)} {xs ys : List (String × Tree)}

theorem Gathers.append (h : Gathers g memo j ts acc new xs r) (h' : Gathers g (new ++ memo) j us r new' ys r') :
    Gathers g memo j (ts ++ us) acc (new' ++ new) (xs ++ ys) r' where
  holds := by
    rw [List.append_assoc]
    exact h'.holds
  branches := by rw [h'.branches, h.branches, List.append_assoc]
  refers := by
    rw [List.append_assoc]
    exact List.rel_append (h.refers.imp fun _ _ hx => hx.mono (List.subset_append_right _ _)) h'.refers
  walk := fun hp => h'.walk (h.walk hp)
  closed := fun hc => h'.closed (h.closed hc)
  after := List.forall_mem_append.2 ⟨h'.after, h.after⟩
  count := by
    rw [h'.count, h.count, size_append, List.filter_append, List.length_append]
    omega

theorem gathers_exit (hb : acc.2.Holds g memo) (hnext : g.successor j t = .ok none) :
    ∃ r, branch g levels path j acc t = .ok r ∧ Gathers g memo j [t] acc [] [(t.text, .leaf .terminator)] r := by
  refine ⟨((acc.2.leaf .terminator).1.join t.text acc.1.1 acc.1.2.1 acc.1.2.2, (acc.2.leaf .terminator).2), ?_, ?_⟩
  · unfold branch
    rw [hnext]
    rfl
  · refine ⟨⟨hb.shared, hb.nodup, hb.complete⟩, rfl, .cons (.inl ⟨hnext, rfl⟩) .nil, fun hp => hp, fun hc => ?_, nofun,
      ?_⟩
    · simp only [Expansion.join, hc, Bool.true_and]
      rfl
    · simp only [Builder.leaf, hnext, decide_true, List.filter_cons_of_pos, List.filter_nil, List.length_singleton]
      rfl

theorem gathers_step (ht : t ∈ j.targets) (hnext : g.successor j t = .ok (some k))
    (hr : expand g levels (j.name :: path) k acc.2 = .ok (e, b')) (h : Expands g memo k acc.2 new (e, b')) :
    ∃ r, branch g levels path j acc t = .ok r ∧ Gathers g memo j [t] acc new [(t.text, e.tree)] r := by
  have hstep : g.Step j k := ⟨t, ht, hnext⟩
  have he : e.Complete g (new ++ memo) k := h.holds.complete _ h.mem
  refine ⟨(e.join t.text acc.1.1 acc.1.2.1 acc.1.2.2, b'), ?_, ?_⟩
  · exact Except.bind_eq_ok.2 ⟨_, hnext, Except.bind_eq_ok.2 ⟨_, hr, rfl⟩⟩
  · refine ⟨h.holds, rfl, .cons (.inr ⟨k, e, hnext, h.mem, rfl⟩) .nil, fun hp => ?_, fun hc => ?_,
      fun x hx => .head' hstep (h.after x hx), ?_⟩
    · obtain ⟨q, hq, hlength⟩ := he.walk
      simp only [Expansion.join, he.isJump, if_true]
      rcases le_total acc.1.2.1 (e.height + 1) with hle | hle
      · exact ⟨k :: q, List.isChain_cons_cons.2 ⟨hstep, hq⟩, by rw [max_eq_right hle, List.length_cons, hlength]⟩
      · rw [max_eq_left hle]
        exact hp
    · simp only [Expansion.join, hc, he.closed, Bool.true_and]
    · simpa [hnext] using h.count

/-- Gathering the branches of one target after the other. -/
theorem exists_gathers (hstep : ∀ t ∈ ts, ∀ acc memo, acc.2.Holds g memo → ∃ new xs r,
      branch g levels path j acc t = .ok r ∧ Gathers g memo j [t] acc new xs r) :
    ∀ acc memo, acc.2.Holds g memo → ∃ new xs r,
      ts.foldlM (branch g levels path j) acc = .ok r ∧ Gathers g memo j ts acc new xs r := by
  induction ts with
  | nil =>
    intro acc memo hb
    exact ⟨[], [], acc, rfl, hb, (List.append_nil _).symm, .nil, fun h => h, fun h => h, nofun, rfl⟩
  | cons t ts ih =>
    intro acc memo hb
    obtain ⟨new, xs, r, hr, hgathers⟩ := hstep t List.mem_cons_self acc memo hb
    obtain ⟨new', ys, r', hr', hgathers'⟩ := ih (fun t ht => hstep t (List.mem_cons_of_mem _ ht)) r _ hgathers.holds
    exact ⟨new' ++ new, xs ++ ys, r', Except.foldlM_cons_eq_ok.2 ⟨r, hr, hr'⟩, hgathers.append hgathers'⟩

/-- The jump over its branches joins the memory. -/
theorem Gathers.expands {branches : List (String × Tree)} {height serial : Nat} {closed : Bool}
    (h : Gathers g memo j j.targets (([], 0, true), { b with count := b.count + 1 }) new xs
      ((branches, height, closed), b'))
    (hj : j ∈ g.jumps) (hfresh : j ∉ memo.map Prod.fst) (hcircle : ¬ Relation.TransGen g.Step j j) :
    let e : Expansion := ⟨.jump serial j.name branches, height, closed⟩
    Expands g memo j b ((j, e) :: new) (e, if closed then { b' with shared := (j.name, e) :: b'.shared } else b') := by
  intro e
  have hclosed : closed = true := h.closed rfl
  have hbranches : branches = xs := h.branches
  have hcomplete : e.Complete g (new ++ memo) j :=
    ⟨hj, hclosed, h.walk ⟨[], List.isChain_singleton j, rfl⟩, serial, branches, rfl, hbranches ▸ h.refers⟩
  have hsub : new ++ memo ⊆ (j, e) :: (new ++ memo) := List.subset_cons_self _ _
  rw [if_pos hclosed]
  refine ⟨⟨?_, ?_, ?_⟩, List.mem_cons_self, ?_, ?_⟩
  · rw [List.cons_append, List.map_cons, ← h.holds.shared]
  · rw [List.cons_append, List.map_cons, List.nodup_cons]
    refine ⟨fun hmem => ?_, h.holds.nodup⟩
    rw [List.map_append, List.mem_append] at hmem
    rcases hmem with hmem | hmem
    · obtain ⟨x, hx, rfl⟩ := List.mem_map.1 hmem
      exact hcircle (h.after x hx)
    · exact hfresh hmem
  · exact List.forall_mem_cons.2 ⟨hcomplete.mono hsub, fun x hx => (h.holds.complete x hx).mono hsub⟩
  · exact List.forall_mem_cons.2 ⟨.refl, fun x hx => (h.after x hx).to_reflTransGen⟩
  · have hcount : b'.count = b.count + 1 + size g new + (g.exits j).length := h.count
    simp only [hcount, size, List.map_cons, JumpGraph.exitsOf, List.flatMap_cons, List.length_append, List.length_map,
      List.length_cons]
    omega

end Gathers

/-- A jump from which all walks fit is expanded if it is not in the memory, and taken from it otherwise. -/
theorem exists_expands (hnames : (g.jumps.map TimedJump.name).Nodup)
    (hres : ∀ j ∈ g.jumps, ∀ r ∈ j.ladder, g.Resolves j r.target) : ∀ levels path j b memo, j ∈ g.jumps →
      g.Bounded levels j → Behind g path j → b.Holds g memo →
        ∃ new r, expand g levels path j b = .ok r ∧ Expands g memo j b new r := by
  intro levels
  -- all walks fit into the levels that are left, so no jump is cut off and none comes back to the path
  induction levels with
  | zero => exact fun _ _ _ _ _ hbound => absurd hbound JumpGraph.not_bounded_zero
  | succ levels ih =>
  intro path j b memo hj hbound hbehind hb
  have hcircle : ¬ Relation.TransGen g.Step j j := not_transGen_of_acc hbound.acc
  have hpath : j.name ∉ path := fun hmem => by
    obtain ⟨k, hk, hname, hback⟩ := hbehind _ hmem
    cases List.inj_on_of_nodup_map hnames hk hj hname
    exact hcircle hback
  unfold expand
  rw [if_neg (by rwa [List.contains_iff_mem])]
  split
  · rename_i e he
    obtain ⟨he, -⟩ := Option.filter_eq_some_iff.1 he
    exact ⟨[], _, rfl, hb, (hb.shared?_eq_some hnames hj).1 he, nofun, rfl⟩
  · rename_i hmiss
    -- a subtree of the jump would be low enough to be used here
    have hfresh : j ∉ memo.map Prod.fst := fun hmem => by
      obtain ⟨⟨_, e⟩, hx, rfl⟩ := List.mem_map.1 hmem
      rw [(hb.shared?_eq_some hnames hj).2 hx, Option.filter_some,
        if_pos (decide_eq_true ((hb.complete _ hx).height_lt hbound))] at hmiss
      cases hmiss
    have hstep : ∀ t ∈ j.targets, ∀ acc memo, acc.2.Holds g memo → ∃ new xs r,
        branch g levels path j acc t = .ok r ∧ Gathers g memo j [t] acc new xs r := by
      intro t ht acc memo hacc
      obtain ⟨r, hr, rfl⟩ := JumpGraph.mem_targets.1 ht
      obtain ⟨next, hnext⟩ := JumpGraph.exists_successor (hres j hj r hr)
      cases next with
      | none => exact ⟨_, _, gathers_exit hacc hnext⟩
      | some k =>
        have hk : g.Step j k := ⟨_, ht, hnext⟩
        obtain ⟨new, ⟨e, b'⟩, hexpand, hexpands⟩ := ih (j.name :: path) k acc.2 memo hk.mem (hbound.step hk)
          (hbehind.cons hj hk) hacc
        exact ⟨_, _, gathers_step ht hnext hexpand hexpands⟩
    obtain ⟨new, xs, ⟨⟨branches, height, closed⟩, b'⟩, hfold, hgathers⟩ :=
      exists_gathers hstep (([], 0, true), { b with count := b.count + 1 }) memo ⟨hb.shared, hb.nodup, hb.complete⟩
    exact ⟨_, _, Except.bind_eq_ok.2 ⟨_, hfold, rfl⟩, hgathers.expands hj hfresh hcircle⟩

/-! ## The number of nodes -/

theorem ncard_mem {α : Type} {l : List α} (h : l.Nodup) : {x | x ∈ l}.ncard = l.length := by
  classical
  rw [← List.coe_toFinset, Set.ncard_coe_finset, List.toFinset_card_of_nodup h]

theorem size_eq (hnodup : (memo.map Prod.fst).Nodup) (hmem : ∀ j, j ∈ memo.map Prod.fst ↔ g.Reached j) :
    size g memo = {j | g.Reached j}.ncard + {x : TimedJump × Target | g.Reached x.1 ∧
      (∃ r ∈ x.1.ladder, r.target = x.2) ∧ g.successor x.1 x.2 = .ok none}.ncard := by
  simp only [← hmem, ← JumpGraph.mem_exitsOf]
  rw [ncard_mem hnodup, ncard_mem (JumpGraph.nodup_exitsOf hnodup), List.length_map, size]

/-- The memory at the end has the jumps that are reached. -/
theorem exists_build {first : TimedJump} {rest : List TimedJump} (hjumps : g.jumps = first :: rest)
    (hnames : (g.jumps.map TimedJump.name).Nodup) (hres : ∀ j ∈ g.jumps, ∀ r ∈ j.ladder, g.Resolves j r.target)
    (hacyclic : g.Acyclic) (hpaths : g.PathsWithin maxDepth) :
    ∃ (memo : _) (e : Expansion) (b : Builder), build g = .ok (e.tree, size g memo) ∧ b.Holds g memo ∧
      (first, e) ∈ memo ∧ ∀ j, j ∈ memo.map Prod.fst ↔ g.Reached j := by
  have hhead : g.jumps.head? = some first := by rw [hjumps, List.head?_cons]
  have hfirst : first ∈ g.jumps := List.mem_of_mem_head? hhead
  obtain ⟨memo, ⟨e, b⟩, hexpand, hexpands⟩ := exists_expands hnames hres maxDepth [] first ⟨0, []⟩ [] hfirst
    (hacyclic.bounded hpaths hhead) nofun ⟨rfl, List.nodup_nil, nofun⟩
  have hholds := hexpands.holds
  have hmem := hexpands.mem
  have hcount := hexpands.count
  rw [List.append_nil] at hholds hmem
  rw [Nat.zero_add] at hcount
  refine ⟨memo, e, b, ?_, hholds, hmem, fun j => ⟨fun hj => ?_, ?_⟩⟩
  · unfold build
    rw [hjumps]
    exact Except.bind_eq_ok.2 ⟨_, hexpand, congrArg (fun n => Except.ok (e.tree, n)) hcount⟩
  · obtain ⟨x, hx, rfl⟩ := List.mem_map.1 hj
    exact ⟨first, hhead, hexpands.after x hx⟩
  · rintro ⟨first', hfirst', hwalk⟩
    cases hhead.symm.trans hfirst'
    obtain ⟨sub, hsub, -⟩ := hholds.of_walk hwalk hmem
    exact List.mem_map_of_mem hsub

/-- The tree of a sequence whose jumps have names of their own, times and destinations, unless the conditions of a jump
are at fault: if the jumps that are reached lead in no circle and every path to them fits, then it has one node for each
of them, however often they are met, and one for each of their targets that leads to the end. -/
theorem build_linear {t : Timeline} (hnames : (t.sequence.jumps.map fun e => e.1.name).Nodup)
    (htimes : ∀ e ∈ t.sequence.jumps, ∃ time, t.jumpTime e.1.name = .ok time)
    (hdest : ∀ e ∈ t.sequence.jumps, ∀ l, e.1.mergedLadder = .ok l → ∀ r ∈ l, ∀ d, r.target = .destination d →
      ∃ time, t.timeOf d e.1.name = .ok time) :
    (∃ e ∈ t.sequence.jumps, ∃ f, e.1.mergedLadder = .error f ∧ JumpGraph.ofTimeline t = .error f) ∨
      ∃ g, JumpGraph.ofTimeline t = .ok g ∧ (g.Acyclic → g.PathsWithin maxDepth → ∃ tree,
        build g = .ok (tree, if g.jumps = [] then 1 else {j | g.Reached j}.ncard +
          {x : TimedJump × Target | g.Reached x.1 ∧ (∃ r ∈ x.1.ladder, r.target = x.2) ∧
            g.successor x.1 x.2 = .ok none}.ncard) ∧
        (∀ j, g.Reached j → ∃! serial, tree.Node serial j.name) ∧
        ∀ serial name, tree.Node serial name → ∃ j, g.Reached j ∧ j.name = name) := by
  cases hg : JumpGraph.ofTimeline t with
  | error f =>
    obtain ⟨e, he, hladder⟩ := JumpGraph.exists_of_ofTimeline_eq_error hg htimes
    exact .inl ⟨e, he, f, hladder, rfl⟩
  | ok g =>
    refine .inr ⟨g, rfl, fun hacyclic hpaths => ?_⟩
    have hnodup := JumpGraph.nodup_of_ofTimeline hg hnames
    cases hjumps : g.jumps with
    | nil =>
      refine ⟨.leaf .terminator, ?_, ?_, ?_⟩
      · unfold build
        rw [hjumps]
        rfl
      · rintro j ⟨first, hfirst, -⟩
        rw [hjumps] at hfirst
        cases hfirst
      · intro serial name hnode
        cases hnode
    | cons first rest =>
      obtain ⟨memo, e, b, hbuild, hholds, hmem, hreached⟩ := exists_build hjumps hnodup
        (JumpGraph.resolves_of_ofTimeline hg hdest) hacyclic hpaths
      refine ⟨e.tree, ?_, fun j hj => ?_, fun serial name hnode => ?_⟩
      · rw [if_neg (List.cons_ne_nil _ _), ← size_eq hholds.nodup hreached]
        exact hbuild
      · obtain ⟨first', hfirst', hwalk⟩ := hj
        rw [hjumps] at hfirst'
        cases hfirst'
        exact hholds.existsUnique_node hnodup hmem hwalk
      · obtain ⟨y, hy, branches, hname, -⟩ := hholds.exists_of_node hnode hmem rfl
        exact ⟨y.1, (hreached y.1).1 (List.mem_map_of_mem hy), hname⟩

/-- A jump that passes over the next one or not, and one after them that both lead to. -/
def forking : Timeline where
  sequence := {
    name := "forking", length := 40, shots := 1, variants := 1, hardware := default, controls := []
    channels := [⟨"detector", [⟨"gate", .absolute 3, .absolute 5⟩], .control [
      ⟨"first", .absolute 9, .branch "gate" [.atLeast 3 (.destination (.jump "last")), .otherwise .pass]⟩,
      ⟨"middle", .absolute 15, .branch "gate" [.atLeast 3 .terminate, .otherwise .pass]⟩,
      ⟨"last", .absolute 20, .branch "gate" [.atLeast 3 .terminate, .otherwise .pass]⟩]⟩] }
  values := []

theorem linear_forking : ∃ g tree, JumpGraph.ofTimeline forking = .ok g ∧ g.Acyclic ∧ g.PathsWithin maxDepth ∧
    build g = .ok (tree, 6) ∧ {j | g.Reached j}.ncard + {x : TimedJump × Target | g.Reached x.1 ∧
      (∃ r ∈ x.1.ladder, r.target = x.2) ∧ g.successor x.1 x.2 = .ok none}.ncard = 6 ∧
    ∀ j, g.Reached j → ∃! serial, tree.Node serial j.name := by
  have hnames : (forking.sequence.jumps.map fun e => e.1.name).Nodup := by decide
  have htimes : ∀ e ∈ forking.sequence.jumps, (forking.jumpTime e.1.name).isOk = true := by decide +kernel
  have hladders : ∀ e ∈ forking.sequence.jumps, e.1.mergedLadder.isOk = true := by decide +kernel
  have hlast : ∀ e ∈ forking.sequence.jumps, (forking.timeOf (.jump "last") e.1.name).isOk = true := by decide +kernel
  have htargets : ∀ e ∈ forking.sequence.jumps, ∀ l ∈ e.1.mergedLadder.toOption, ∀ r ∈ l,
      r.target ∈ [.terminate, .pass, .destination (.jump "last")] := by decide +kernel
  have hplaces : ∀ e ∈ forking.sequence.jumps, ∀ l, e.1.mergedLadder = .ok l → ∀ r ∈ l, ∀ d,
      r.target = .destination d → ∃ time, forking.timeOf d e.1.name = .ok time := by
    intro e he l hl r hr d hd
    have htarget := htargets e he l (by rw [hl]; rfl) r hr
    rw [hd] at htarget
    obtain rfl : d = .jump "last" := by simpa using htarget
    exact Except.exists_of_isOk (hlast e he)
  rcases build_linear hnames (fun e he => Except.exists_of_isOk (htimes e he)) hplaces with ⟨e, he, f, hf, -⟩ |
    ⟨g, hg, hlinear⟩
  · obtain ⟨l, hl⟩ := Except.exists_of_isOk (hladders e he)
    cases hl.symm.trans hf
  · have hforward : (JumpGraph.ofTimeline forking).toOption.all (fun g => g.jumps.all fun j => j.targets.all fun t =>
        (g.successor j t).toOption.join.all fun k => decide (j.time < k.time)) = true := by decide +kernel
    have hlength : (JumpGraph.ofTimeline forking).toOption.all (fun g => g.jumps.length == 3) = true := by
      decide +kernel
    have hcount : ((JumpGraph.ofTimeline forking).bind build).map Prod.snd = .ok 6 := by decide +kernel
    rw [hg] at hforward hlength hcount
    have hthree : g.jumps.length = 3 := beq_iff_eq.1 hlength
    have hacyclic : g.Acyclic := JumpGraph.acyclic_of_forward fun j hj t ht k hk => by
      have := List.all_eq_true.1 (List.all_eq_true.1 hforward j hj) t ht
      rw [hk] at this
      exact of_decide_eq_true this
    have hpaths : g.PathsWithin maxDepth := JumpGraph.pathsWithin_of_length (by rw [hthree]; decide)
    obtain ⟨tree, hbuild, hunique, -⟩ := hlinear hacyclic hpaths
    rw [if_neg (List.ne_nil_of_length_pos (by omega))] at hbuild
    change (build g).map Prod.snd = .ok 6 at hcount
    rw [hbuild] at hcount
    have hsix := Except.ok.inj hcount
    exact ⟨g, tree, hg, hacyclic, hpaths, hsix ▸ hbuild, hsix, hunique⟩

end Tree

end PulseSequencer
