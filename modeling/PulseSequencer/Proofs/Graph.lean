import PulseSequencer.Branch.Graph
import PulseSequencer.Proofs.Ladder

/-!
# Ways through the jump graph

* `JumpGraph.Leads`, `JumpGraph.Edge` : where a target leads, and the edges of a jump;
* `JumpGraph.Ordered`, `JumpGraph.ordered_of_ofTimeline` : jumps with names and times of their own, in order;
* `JumpGraph.Ordered.successor_eq_ok` : in such a graph the computed successors are the edges;
* `JumpGraph.Simple`, `JumpGraph.Ordered.exists_simple` : paths without repetition, and that each walk can be made one.
-/

namespace PulseSequencer.JumpGraph

/-! ## Edges -/

/-- The jump that is met first after a time, if there is one. -/
def Follows (g : JumpGraph) (time : Binary64) : Option TimedJump → Prop
  | none => ∀ k ∈ g.jumps, ¬ time < k.time
  | some k => k ∈ g.jumps ∧ time < k.time ∧ ∀ k' ∈ g.jumps, time < k'.time → k' = k ∨ k.time < k'.time

/-- Where a target of a jump leads, `none` being the end. -/
def Leads (g : JumpGraph) (j : TimedJump) : Target → Option TimedJump → Prop
  | .terminate, next => next = none
  | .pass, next => g.Follows j.time next
  | .destination (.jump name), next => ∃ k ∈ g.jumps, k.name = name ∧ next = some k
  | .destination r, next => ∃ time, g.timeline.timeOf r j.name = .ok time ∧ g.Follows time next

/-- One of the targets of `j` leads to `next`. -/
def Edge (g : JumpGraph) (j : TimedJump) (next : Option TimedJump) : Prop := ∃ r ∈ j.ladder, g.Leads j r.target next

/-- The destination of a target is there. -/
def Resolves (g : JumpGraph) (j : TimedJump) : Target → Prop
  | .destination (.jump name) => ∃ k ∈ g.jumps, k.name = name
  | .destination r => ∃ time, g.timeline.timeOf r j.name = .ok time
  | _ => True

/-- Jumps with names of their own, in order of time, each with a ladder. -/
structure Ordered (g : JumpGraph) : Prop where
  names : (g.jumps.map TimedJump.name).Nodup
  times : g.jumps.Pairwise fun a b => a.time < b.time
  ladders : ∀ j ∈ g.jumps, j.ladder ≠ []

theorem mem_targets {j : TimedJump} {t : Target} : t ∈ j.targets ↔ ∃ r ∈ j.ladder, r.target = t := by
  have hfold : ∀ {l : Ladder} {ts : List Target},
      t ∈ l.foldl (fun ts r => if ts.contains r.target then ts else ts ++ [r.target]) ts ↔
        t ∈ ts ∨ ∃ r ∈ l, r.target = t := by
    intro l
    induction l with
    | nil => simp
    | cons r l ih =>
      intro ts
      rw [List.foldl_cons, ih, List.exists_mem_cons_iff]
      split
      · rename_i hr
        rw [List.contains_iff_mem] at hr
        constructor
        · rintro (ht | ht)
          · exact .inl ht
          · exact .inr (.inr ht)
        · rintro (ht | rfl | ht)
          · exact .inl ht
          · exact .inl hr
          · exact .inr ht
      · rw [List.mem_append, List.mem_singleton, or_assoc, eq_comm]
  unfold TimedJump.targets
  rw [hfold]
  simp

section Members

variable {t : Timeline} {g : JumpGraph}

/-- The jumps of a graph are those of the sequence, with their times and ladders. -/
theorem perm_of_ofTimeline (h : ofTimeline t = .ok g) : g.timeline = t ∧
    ∃ js, g.jumps.Perm js ∧ List.Forall₂ (fun (e : Jump × Channel) (j : TimedJump) =>
      j.name = e.1.name ∧ t.jumpTime e.1.name = .ok j.time ∧ e.1.mergedLadder = .ok j.ladder) t.sequence.jumps js := by
  obtain ⟨js, hjs, h⟩ := Except.bind_eq_ok.1 h
  cases h
  refine ⟨rfl, js, Sort.perm_sortBy _ _, (Except.mapM_eq_ok.1 hjs).imp fun e j hj => ?_⟩
  obtain ⟨time, htime, hj⟩ := Except.bind_eq_ok.1 hj
  obtain ⟨ladder, hladder, hj⟩ := Except.bind_eq_ok.1 hj
  cases hj
  exact ⟨rfl, htime, hladder⟩

theorem nodup_of_ofTimeline (h : ofTimeline t = .ok g) (hnames : (t.sequence.jumps.map fun e => e.1.name).Nodup) :
    (g.jumps.map TimedJump.name).Nodup := by
  obtain ⟨-, js, hperm, hall⟩ := perm_of_ofTimeline h
  have hmap : List.Forall₂ (· = ·) (t.sequence.jumps.map fun e => e.1.name) (js.map TimedJump.name) :=
    List.forall₂_map_left_iff.2 (List.forall₂_map_right_iff.2 (hall.imp fun _ _ hj => hj.1.symm))
  rw [List.forall₂_eq_eq_eq] at hmap
  rw [(hperm.map _).nodup_iff, ← hmap]
  exact hnames

/-- Names and times that are told apart make an ordered graph. -/
theorem ordered_of_ofTimeline (h : ofTimeline t = .ok g) (hnames : (t.sequence.jumps.map fun e => e.1.name).Nodup)
    (htimes : g.jumps.Pairwise fun a b => a.time < b.time ∨ b.time < a.time) : g.Ordered := by
  obtain ⟨-, js, hperm, hall⟩ := perm_of_ofTimeline h
  refine ⟨nodup_of_ofTimeline h hnames, ?_, fun j hj => ?_⟩
  · obtain ⟨js', -, h⟩ := Except.bind_eq_ok.1 h
    cases h
    refine @Sort.pairwise_sortBy_of_lt _ _ (fun a b : TimedJump => a.time < b.time)
      (fun h h' => Binary64.lt_trans h h') (fun a b => ?_) _ ?_
    · simp
    · exact htimes.perm (Sort.perm_sortBy _ _) fun h => h.symm
  · obtain ⟨e, -, -, -, hladder⟩ := forall₂_exists_left hall (hperm.mem_iff.1 hj)
    obtain ⟨r, hlast, -⟩ := (Ladder.grounded_of_mergedLadder hladder).last
    rintro hnil
    rw [hnil] at hlast
    cases hlast

end Members

namespace Ordered

variable {g : JumpGraph} {j k : TimedJump} {time : Binary64} {next : Option TimedJump}

theorem eq_of_name (h : g.Ordered) (hj : j ∈ g.jumps) (hk : k ∈ g.jumps) (hname : j.name = k.name) : j = k :=
  List.inj_on_of_nodup_map h.names hj hk hname

theorem lt_or_lt (h : g.Ordered) (hj : j ∈ g.jumps) (hk : k ∈ g.jumps) (hne : j ≠ k) :
    j.time < k.time ∨ k.time < j.time :=
  (eq_or_of_pairwise h.times hj hk).resolve_left hne

theorem follows_nextAfter (h : g.Ordered) (time : Binary64) : g.Follows time (g.nextAfter time) := by
  unfold nextAfter
  cases hfind : g.jumps.find? fun j => decide (time < j.time) with
  | none =>
    intro k hk hlt
    exact List.find?_eq_none.1 hfind k hk (decide_eq_true hlt)
  | some k =>
    obtain ⟨hlt, pre, post, hlist, hpre⟩ := List.find?_eq_some_iff_append.1 hfind
    have htimes := h.times
    refine ⟨by rw [hlist]; simp, of_decide_eq_true hlt, fun k' hk' hlt' => ?_⟩
    rw [hlist, List.pairwise_append, List.pairwise_cons] at htimes
    rw [hlist, List.mem_append, List.mem_cons] at hk'
    rcases hk' with hk' | rfl | hk'
    · have := hpre k' hk'
      simp [hlt'] at this
    · exact .inl rfl
    · exact .inr (htimes.2.1.1 k' hk')

theorem follows_unique {next' : Option TimedJump} (h : g.Follows time next) (h' : g.Follows time next') :
    next = next' := by
  cases next with
  | none =>
    cases next' with
    | none => rfl
    | some k' => exact absurd h'.2.1 (h k' h'.1)
  | some k =>
    cases next' with
    | none => exact absurd h.2.1 (h' k h.1)
    | some k' =>
      rcases h.2.2 k' h'.1 h'.2.1 with rfl | hlt
      · rfl
      · rcases h'.2.2 k h.1 h.2.1 with rfl | hlt'
        · rfl
        · exact absurd (Binary64.lt_trans hlt hlt') (Binary64.lt_irrefl _)

theorem nextAfter_eq_iff (h : g.Ordered) : g.nextAfter time = next ↔ g.Follows time next := by
  constructor
  · rintro rfl
    exact h.follows_nextAfter time
  · exact follows_unique (h.follows_nextAfter time)

theorem find?_eq_some_iff (h : g.Ordered) {name : String} : g.find? name = some k ↔ k ∈ g.jumps ∧ k.name = name := by
  unfold find?
  constructor
  · intro hfind
    exact ⟨List.mem_reverse.1 (List.mem_of_find?_eq_some hfind), by simpa using List.find?_some hfind⟩
  · rintro ⟨hk, rfl⟩
    cases hfind : g.jumps.reverse.find? fun j => j.name == k.name with
    | none => exact absurd (List.find?_eq_none.1 hfind k (List.mem_reverse.2 hk)) (by simp)
    | some k' =>
      have hname : k'.name = k.name := by simpa using List.find?_some hfind
      rw [h.eq_of_name (List.mem_reverse.1 (List.mem_of_find?_eq_some hfind)) hk hname]

/-- The jumps after a time are the next one and those after it. -/
theorem lt_iff_of_follows (h : g.Ordered) (hnext : g.Follows time next) (hj : j ∈ g.jumps) :
    time < j.time ↔ ∃ k ∈ next, ¬ j.time < k.time := by
  cases next with
  | none => simpa using hnext j hj
  | some k =>
    obtain ⟨hk, hlt, hmin⟩ := hnext
    constructor
    · intro hj'
      refine ⟨k, rfl, fun hjk => ?_⟩
      rcases hmin j hj hj' with rfl | hkj
      · exact Binary64.lt_irrefl _ hjk
      · exact Binary64.lt_irrefl _ (Binary64.lt_trans hjk hkj)
    · rintro ⟨_, ⟨⟩, hnot⟩
      by_cases heq : j = k
      · exact heq ▸ hlt
      · exact Binary64.lt_trans hlt ((h.lt_or_lt hj hk heq).resolve_left hnot)

/-- The successors that are computed are the edges. -/
theorem successor_eq_ok (h : g.Ordered) {t : Target} : g.successor j t = .ok next ↔ g.Leads j t next := by
  cases t with
  | terminate => simp [successor, Leads, eq_comm]
  | pass =>
    simp only [successor, Leads, Except.ok.injEq]
    exact h.nextAfter_eq_iff
  | destination r =>
    cases r with
    | jump name =>
      unfold successor Leads
      cases hfind : g.find? name with
      | none =>
        simp only [hfind, reduceCtorEq, false_iff, not_exists, not_and]
        intro k hk hname
        rw [h.find?_eq_some_iff.2 ⟨hk, hname⟩] at hfind
        cases hfind
      | some k =>
        obtain ⟨hk, hname⟩ := h.find?_eq_some_iff.1 hfind
        simp only [hfind, Except.ok.injEq]
        constructor
        · rintro rfl
          exact ⟨k, hk, hname, rfl⟩
        · rintro ⟨k', hk', hname', rfl⟩
          rw [h.eq_of_name hk hk' (hname.trans hname'.symm)]
    | start w | finish w | control w =>
      unfold successor Leads
      rw [Except.bind_eq_ok]
      simp only [Except.pure_eq_ok, h.nextAfter_eq_iff]

theorem exists_leads (h : g.Ordered) {t : Target} (ht : g.Resolves j t) : ∃ next, g.Leads j t next := by
  cases t with
  | terminate => exact ⟨none, rfl⟩
  | pass => exact ⟨_, h.follows_nextAfter j.time⟩
  | destination r =>
    cases r with
    | jump name =>
      obtain ⟨k, hk, hname⟩ := ht
      exact ⟨some k, k, hk, hname, rfl⟩
    | start w | finish w | control w =>
      obtain ⟨time, htime⟩ := ht
      exact ⟨_, time, htime, h.follows_nextAfter time⟩

end Ordered

theorem mem_of_leads {g : JumpGraph} {j k : TimedJump} {t : Target} (h : g.Leads j t (some k)) : k ∈ g.jumps := by
  cases t with
  | terminate => cases h
  | pass => exact h.1
  | destination r =>
    cases r with
    | jump name =>
      obtain ⟨k', hk', -, heq⟩ := h
      cases heq
      exact hk'
    | start w | finish w | control w =>
      obtain ⟨time, -, hfollows⟩ := h
      exact hfollows.1

theorem mem_of_edge {g : JumpGraph} {j k : TimedJump} (h : g.Edge j (some k)) : k ∈ g.jumps := by
  obtain ⟨r, -, hr⟩ := h
  exact mem_of_leads hr

/-! ## Paths -/

/-- A walk from the jump reaches the end. -/
def Ends (g : JumpGraph) (j : TimedJump) : Prop :=
  ∃ k, Relation.ReflTransGen (fun a b => g.Edge a (some b)) j k ∧ g.Edge k none

/-- A path without repetition that avoids some names. -/
structure Simple (g : JumpGraph) (avoid : List String) (p : List TimedJump) : Prop where
  chain : p.IsChain fun a b => g.Edge a (some b)
  nodup : (p.map TimedJump.name).Nodup
  avoids : ∀ k ∈ p, k.name ∉ avoid

section Paths

variable {g : JumpGraph} {avoid : List String} {j k : TimedJump} {p : List TimedJump}

theorem simple_singleton : g.Simple avoid [j] ↔ j.name ∉ avoid := by
  constructor
  · intro h
    exact h.avoids j (List.mem_singleton.2 rfl)
  · intro h
    refine ⟨List.isChain_singleton j, by simp, fun k hk => ?_⟩
    rw [List.mem_singleton.1 hk]
    exact h

theorem simple_cons_cons : g.Simple avoid (j :: k :: p) ↔
    j.name ∉ avoid ∧ g.Edge j (some k) ∧ g.Simple (j.name :: avoid) (k :: p) := by
  constructor
  · intro h
    obtain ⟨hedge, hchain⟩ := List.isChain_cons_cons.1 h.chain
    have hnodup := h.nodup
    rw [List.map_cons, List.nodup_cons] at hnodup
    refine ⟨h.avoids j List.mem_cons_self, hedge, hchain, hnodup.2, fun x hx => ?_⟩
    rw [List.mem_cons, not_or]
    refine ⟨fun heq => hnodup.1 (heq ▸ List.mem_map_of_mem hx), h.avoids x (List.mem_cons_of_mem _ hx)⟩
  · rintro ⟨hj, hedge, h⟩
    refine ⟨List.isChain_cons_cons.2 ⟨hedge, h.chain⟩, ?_, ?_⟩
    · rw [List.map_cons, List.nodup_cons]
      refine ⟨fun hmem => ?_, h.nodup⟩
      obtain ⟨x, hx, hname⟩ := List.mem_map.1 hmem
      exact h.avoids x hx (by rw [hname]; exact List.mem_cons_self)
    · refine List.forall_mem_cons.2 ⟨hj, fun x hx hmem => ?_⟩
      exact h.avoids x hx (List.mem_cons_of_mem _ hmem)

theorem Simple.mem (h : g.Simple avoid (j :: p)) (hj : j ∈ g.jumps) : ∀ k ∈ j :: p, k ∈ g.jumps := by
  induction p generalizing j avoid with
  | nil =>
    intro k hk
    rw [List.mem_singleton.1 hk]
    exact hj
  | cons k p ih =>
    obtain ⟨-, hedge, hrest⟩ := simple_cons_cons.1 h
    exact List.forall_mem_cons.2 ⟨hj, ih hrest (mem_of_edge hedge)⟩

/-- A walk to the end can be cut short to a path. -/
theorem Ordered.exists_simple (h : g.Ordered) (hj : j ∈ g.jumps) (hends : g.Ends j) :
    ∃ p k, g.Simple [] (j :: p) ∧ (j :: p).getLast? = some k ∧ g.Edge k none := by
  obtain ⟨k, hwalk, hend⟩ := hends
  induction hwalk using Relation.ReflTransGen.head_induction_on with
  | refl => exact ⟨[], k, simple_singleton.2 List.not_mem_nil, rfl, hend⟩
  | @head j j' hedge _ ih =>
    obtain ⟨p, k', hp, hlast, hk'⟩ := ih (mem_of_edge hedge)
    have hmem := hp.mem (mem_of_edge hedge)
    by_cases hj' : j ∈ j' :: p
    · -- the path comes back to where it started
      obtain ⟨pre, post, hsplit⟩ := List.append_of_mem hj'
      rw [hsplit] at hp hlast
      have hnodup := hp.nodup
      rw [List.map_append, List.nodup_append] at hnodup
      refine ⟨post, k', ⟨hp.chain.right_of_append, hnodup.2.1, fun x _ => List.not_mem_nil⟩, ?_, hk'⟩
      rw [← hlast, List.getLast?_append_cons]
    · refine ⟨j' :: p, k', ⟨List.isChain_cons_cons.2 ⟨hedge, hp.chain⟩, ?_, fun x _ => List.not_mem_nil⟩, ?_, hk'⟩
      · rw [List.map_cons, List.nodup_cons]
        refine ⟨fun hname => ?_, hp.nodup⟩
        obtain ⟨x, hx, hname⟩ := List.mem_map.1 hname
        rw [h.eq_of_name (hmem x hx) hj hname] at hx
        exact hj' hx
      · rw [List.getLast?_cons_cons, hlast]

end Paths

end PulseSequencer.JumpGraph
