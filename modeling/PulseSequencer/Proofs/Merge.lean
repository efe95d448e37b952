import PulseSequencer.Proofs.Groups
import PulseSequencer.Proofs.Links
import PulseSequencer.Proofs.Union

/-!
# What merging SETs keeps

Every SET has an heir: the SET it is united into. Jumps follow the heirs of their targets, everything else stays.

* `Draft.heir`, `Draft.Heads` : the heir of a SET, and what it has from its group;
* `Draft.Merged`, `Draft.Linked.merged` : the draft after a merge;
* `Draft.Merged.linked`, `Draft.Merged.hostAt_eq`, `Draft.Merged.first_of_leads` : what the merged draft keeps.
-/

namespace PulseSequencer.Draft

/-! ## One group after the other -/

/-- The SET `u` of `b'` has all that the SETs `ls` of `b` have; it is new unless it is the only one of them. -/
structure Heads (b : Board) (ls : List Label) (u : Label) (b' : Board) : Prop where
  lt_size : u < b'.size
  isSet : (b'.get u).isSet = true
  time : ∀ l ∈ ls, b.time l = b'.time u
  block : ls.filterMap (fun l => (b.get l).block) = (b'.get u).block.toList
  reachedBy : (b'.get u).reachedBy = ls.flatMap fun l => (b.get l).reachedBy
  drive : Board.DriveUnion (ls.map fun l => (b.get l).drive) (b'.get u).drive
  fresh : ls = [u] ∨ b.size ≤ u

/-- The SET that the group of `l` becomes. -/
def heirIn (pairs : List (List Label × Label)) (l : Label) : Label :=
  match pairs.find? fun p => p.1.contains l with
  | some p => p.2
  | none => l

theorem heirIn_cons (g : List Label) (u : Label) (pairs : List (List Label × Label)) (l : Label) :
    heirIn ((g, u) :: pairs) l = if l ∈ g then u else heirIn pairs l := by
  unfold heirIn
  rw [List.find?_cons]
  by_cases h : l ∈ g <;> simp [h]

theorem heirIn_of_notMem {gs : List (List Label)} {us : List Label} {l : Label} (h : ∀ g ∈ gs, l ∉ g) :
    heirIn (gs.zip us) l = l := by
  have : (gs.zip us).find? (fun p => p.1.contains l) = none := by
    refine List.find?_eq_none.2 fun p hp => ?_
    simpa using h p.1 (List.of_mem_zip hp).1
  rw [heirIn, this]

/-- The groups can be united one after the other, jumps of the list `ls` going to them. -/
structure Mergeable (b : Board) (ls : List Label) (gs : List (List Label)) : Prop where
  valid : ∀ l ∈ ls, l < b.size
  sets : ∀ g ∈ gs, ∀ l ∈ g, l ∈ ls ∧ (b.get l).isSet = true ∧ (b.get l).drive.Inside
  disjoint : gs.Pairwise List.Disjoint
  target : ∀ m ∈ ls, ∀ l, (b.get m).target? = some l → (∃ g ∈ gs, l ∈ g) → m ∈ (b.get l).reachedBy
  reached : ∀ g ∈ gs, ∀ l ∈ g, ∀ m ∈ (b.get l).reachedBy, m ∈ ls ∧ (b.get m).target? = some l

/-- The groups `gs` have become the SETs `us`. -/
structure Unified (b : Board) (ls : List Label) (gs : List (List Label)) (us : List Label) (b' : Board) : Prop where
  size_le : b.size ≤ b'.size
  kept : ∀ m ∈ ls, b'.get m = (b.get m).retarget (heirIn (gs.zip us))
  frame : ∀ m, m < b.size → m ∉ ls → b'.get m = b.get m
  length : us.length = gs.length
  heads : ∀ p ∈ gs.zip us, Heads b p.1 p.2 b'
  new : ∀ u ∈ us, [u] ∈ gs ∨ b.size ≤ u
  nodup : us.Nodup

theorem Mergeable.tail {b : Board} {ls g : List Label} {gs : List (List Label)} (h : Mergeable b ls (g :: gs)) :
    Mergeable b ls gs where
  valid := h.valid
  sets g' hg' := h.sets g' (List.mem_cons_of_mem _ hg')
  disjoint := h.disjoint.of_cons
  target m hm l hl := fun ⟨g', hg', hlg⟩ => h.target m hm l hl ⟨g', List.mem_cons_of_mem _ hg', hlg⟩
  reached g' hg' := h.reached g' (List.mem_cons_of_mem _ hg')

/-- A member of a further group is in no other one. -/
theorem Mergeable.notMem_of_mem {b : Board} {ls g : List Label} {gs : List (List Label)} (h : Mergeable b ls (g :: gs))
    {l : Label} (hl : l ∈ g) : ∀ g' ∈ gs, l ∉ g' :=
  fun g' hg' hl' => (List.pairwise_cons.1 h.disjoint).1 g' hg' hl hl'

section UniteOne

variable {b b₁ : Board} {ls g : List Label} {gs : List (List Label)} {u : Label}

theorem Mergeable.mem_reached_iff (h : Mergeable b ls (g :: gs)) {m : Label} (hm : m ∈ ls) :
    m ∈ g.flatMap (fun l => (b.get l).reachedBy) ↔ ∃ l ∈ g, (b.get m).target? = some l := by
  rw [List.mem_flatMap]
  constructor
  · rintro ⟨l, hl, hml⟩
    exact ⟨l, hl, (h.reached g List.mem_cons_self l hl m hml).2⟩
  · rintro ⟨l, hl, hml⟩
    exact ⟨l, hl, h.target m hm l hml ⟨g, List.mem_cons_self, hl⟩⟩

theorem Mergeable.notMem_reached (h : Mergeable b ls (g :: gs)) {m : Label} (hm : m ∉ ls) :
    m ∉ g.flatMap (fun l => (b.get l).reachedBy) := by
  rw [List.mem_flatMap]
  rintro ⟨l, hl, hml⟩
  exact hm (h.reached g List.mem_cons_self l hl m hml).1

/-- Uniting one group leaves the others as they are. -/
theorem Mergeable.of_unites (h : Mergeable b ls (g :: gs)) (hu : b.Unites g u b₁) : Mergeable b₁ ls gs := by
  have hget : ∀ g' ∈ gs, ∀ l ∈ g', b₁.get l = b.get l := fun g' hg' l hl => by
    obtain ⟨hls, hset, -⟩ := h.sets g' (List.mem_cons_of_mem _ hg') l hl
    exact hu.get_of_isSet (h.valid l hls) hset
  refine ⟨fun l hl => ?_, fun g' hg' l hl => ?_, h.disjoint.of_cons, ?_, fun g' hg' l hl m hm => ?_⟩
  · rw [hu.size]
    exact Nat.lt_succ_of_lt (h.valid l hl)
  · rw [hget g' hg' l hl]
    exact h.sets g' (List.mem_cons_of_mem _ hg') l hl
  · rintro m hm l htarget ⟨g', hg', hl⟩
    rw [hget g' hg' l hl]
    rw [hu.old m (h.valid m hm)] at htarget
    split at htarget
    · rename_i hmem
      -- a jump to the united group goes to the new label, which no group has
      obtain ⟨x, -, hx⟩ := (h.mem_reached_iff hm).1 hmem
      rw [Instruction.target?_retarget, hx] at htarget
      cases htarget
      have := h.valid u (h.sets g' (List.mem_cons_of_mem _ hg') u hl).1
      rw [hu.label] at this
      exact absurd this (lt_irrefl _)
    · exact h.target m hm l htarget ⟨g', List.mem_cons_of_mem _ hg', hl⟩
  · rw [hget g' hg' l hl] at hm
    obtain ⟨hmls, htarget⟩ := h.reached g' (List.mem_cons_of_mem _ hg') l hl m hm
    refine ⟨hmls, ?_⟩
    rw [hu.old m (h.valid m hmls), if_neg, htarget]
    rw [h.mem_reached_iff hmls]
    rintro ⟨x, hx, hx'⟩
    cases htarget.symm.trans hx'
    exact h.notMem_of_mem hx g' hg' hl

end UniteOne

theorem uniteGroup_of_ne {controlMask : Int} {acc : List Label × Board} {g : List Label} (h : ∀ u, g ≠ [u]) :
    uniteGroup controlMask acc g = acc.2.unite controlMask g >>= fun r => pure (acc.1 ++ [r.1], r.2) := by
  unfold uniteGroup
  split
  · exact absurd rfl (h _)
  · rfl

theorem uniteGroup_eq_ok {controlMask : Int} {acc r : List Label × Board} {g : List Label}
    (h : (uniteGroup controlMask acc g).outcome = .ok r) :
    ∃ u, r.1 = acc.1 ++ [u] ∧ ((g = [u] ∧ r.2 = acc.2) ∨ (acc.2.unite controlMask g).outcome = .ok (u, r.2)) := by
  unfold uniteGroup at h
  split at h
  · cases h
    exact ⟨_, rfl, .inl ⟨rfl, rfl⟩⟩
  · obtain ⟨⟨u, b⟩, hu, h⟩ := Attempt.bind_eq_ok.1 h
    cases h
    exact ⟨u, rfl, .inr hu⟩

/-- A SET alone heads itself. -/
theorem heads_singleton {b b' : Board} {u : Label} (hsize : u < b'.size) (hget : b'.get u = b.get u)
    (hset : (b.get u).isSet = true) (hin : (b.get u).drive.Inside) : Heads b [u] u b' := by
  refine ⟨hsize, by rw [hget]; exact hset, ?_, ?_, by simp [hget], ?_, .inl rfl⟩
  · simp [Board.time, hget]
  · cases h : (b.get u).block <;> simp [hget, h]
  · rw [hget]
    refine ⟨by simp, fun i e he => ?_, hin, by simp⟩
    rw [List.mem_singleton.1 (List.mem_of_find?_eq_some he)]

theorem heads_of_unites {b b₁ b' : Board} {g : List Label} {u : Label} (hu : b.Unites g u b₁)
    (hsize : b₁.size ≤ b'.size) (hget : b'.get u = b₁.get u) : Heads b g u b' := by
  obtain ⟨time, block, d, hcell, htime, hblock, hdrive⟩ := hu.cell
  refine ⟨?_, ?_, ?_, ?_, ?_, ?_, .inr hu.label.ge⟩
  · refine lt_of_lt_of_le ?_ hsize
    rw [hu.size, hu.label]
    exact Nat.lt_succ_self _
  · rw [hget, hcell]
    rfl
  · rw [Board.time, hget, hcell]
    exact htime
  · rw [hget, hcell]
    exact hblock
  · rw [hget, hcell]
  · rw [hget, hcell]
    exact hdrive

theorem Heads.of_get {b b₁ b' : Board} {g : List Label} {u : Label} (h : Heads b₁ g u b') (hsize : b.size ≤ b₁.size)
    (hget : ∀ l ∈ g, b₁.get l = b.get l) : Heads b g u b' := by
  refine ⟨h.lt_size, h.isSet, fun l hl => ?_, ?_, ?_, ?_, h.fresh.imp_right hsize.trans⟩
  · rw [← h.time l hl, Board.time, Board.time, hget l hl]
  · rw [← h.block]
    exact List.filterMap_congr fun l hl => by rw [hget l hl]
  · rw [h.reachedBy]
    exact List.flatMap_congr fun l hl => by rw [hget l hl]
  · rw [show g.map (fun l => (b.get l).drive) = g.map fun l => (b₁.get l).drive from
      List.map_congr_left fun l hl => by rw [hget l hl]]
    exact h.drive

/-- One more group in front, a SET alone. -/
theorem Unified.cons_singleton {b b' : Board} {ls us : List Label} {gs : List (List Label)} {u : Label}
    (hm : Mergeable b ls ([u] :: gs)) (h : Unified b ls gs us b') : Unified b ls ([u] :: gs) (u :: us) b' := by
  have hmem : u ∈ [u] := List.mem_singleton.2 rfl
  obtain ⟨hu, hset, hin⟩ := hm.sets _ List.mem_cons_self u hmem
  have hheir : heirIn (([u] :: gs).zip (u :: us)) = heirIn (gs.zip us) := by
    funext x
    rw [List.zip_cons_cons, heirIn_cons]
    split
    · rename_i hx
      rw [List.mem_singleton.1 hx, heirIn_of_notMem (hm.notMem_of_mem hmem)]
    · rfl
  have hget : b'.get u = b.get u := by
    rw [h.kept u hu]
    exact Instruction.retarget_of_target?_eq_none (Instruction.target?_of_isSet hset)
  refine ⟨h.size_le, fun m hm' => ?_, h.frame, by simp [h.length], fun p hp => ?_, fun v hv => ?_,
    List.nodup_cons.2 ⟨fun hv => ?_, h.nodup⟩⟩
  · rw [hheir]
    exact h.kept m hm'
  · rcases List.mem_cons.1 hp with rfl | hp
    · exact heads_singleton (lt_of_lt_of_le (hm.valid u hu) h.size_le) hget hset hin
    · exact h.heads p hp
  · rcases List.mem_cons.1 hv with rfl | hv
    · exact .inl List.mem_cons_self
    · exact (h.new v hv).imp_left (List.mem_cons_of_mem _)
  · rcases h.new u hv with hg | hfresh
    · exact hm.notMem_of_mem hmem _ hg hmem
    · exact absurd (hm.valid u hu) (Nat.not_lt.2 hfresh)

/-- One more group in front, of several SETs. -/
theorem Unified.cons_unites {b b₁ b' : Board} {ls g us : List Label} {gs : List (List Label)} {u : Label}
    (hm : Mergeable b ls (g :: gs)) (hu : b.Unites g u b₁) (h : Unified b₁ ls gs us b') :
    Unified b ls (g :: gs) (u :: us) b' := by
  have hsize : b.size ≤ b₁.size := by rw [hu.size]; exact Nat.le_succ _
  have hlt : u < b₁.size := by rw [hu.size, hu.label]; exact Nat.lt_succ_self _
  have hnew : u ∉ ls := fun h => by
    have := hm.valid u h
    rw [hu.label] at this
    exact lt_irrefl _ this
  have hnotMem : ∀ g' ∈ gs, u ∉ g' := fun g' hg' h => hnew (hm.sets g' (List.mem_cons_of_mem _ hg') u h).1
  refine ⟨hsize.trans h.size_le, fun m hmls => ?_, fun m hlt' hmls => ?_, by simp [h.length], fun p hp => ?_,
    fun v hv => ?_, List.nodup_cons.2 ⟨fun hv => ?_, h.nodup⟩⟩
  · -- a jump to the group goes to its heir, all others as the rest of the groups says
    rw [h.kept m hmls, hu.old m (hm.valid m hmls), List.zip_cons_cons]
    split
    · rename_i hmem
      obtain ⟨x, hx, htarget⟩ := (hm.mem_reached_iff hmls).1 hmem
      rw [Instruction.retarget_retarget]
      refine Instruction.retarget_congr fun y hy => ?_
      cases htarget.symm.trans hy
      rw [Function.comp_apply, heirIn_of_notMem hnotMem, heirIn_cons, if_pos hx]
    · rename_i hmem
      refine Instruction.retarget_congr fun y hy => ?_
      rw [heirIn_cons, if_neg fun hyg => hmem ((hm.mem_reached_iff hmls).2 ⟨y, hyg, hy⟩)]
  · rw [h.frame m (lt_of_lt_of_le hlt' hsize) hmls, hu.old m hlt', if_neg (hm.notMem_reached hmls)]
  · rcases List.mem_cons.1 hp with rfl | hp
    · exact heads_of_unites hu h.size_le (h.frame u hlt hnew)
    · refine (h.heads p hp).of_get hsize fun l hl => ?_
      obtain ⟨hls, hset, -⟩ := hm.sets p.1 (List.mem_cons_of_mem _ (List.of_mem_zip hp).1) l hl
      exact hu.get_of_isSet (hm.valid _ hls) hset
  · rcases List.mem_cons.1 hv with rfl | hv
    · exact .inr hu.label.ge
    · exact (h.new v hv).imp (List.mem_cons_of_mem _) hsize.trans
  · rcases h.new u hv with hg | hfresh
    · exact hnotMem _ hg (List.mem_singleton.2 rfl)
    · exact absurd hlt (Nat.not_lt.2 hfresh)

theorem unified_of_foldlM {controlMask : Int} {ls : List Label} {gs : List (List Label)} :
    ∀ {us₀ us' : List Label} {b b' : Board}, Mergeable b ls gs →
      (gs.foldlM (uniteGroup controlMask) (us₀, b)).outcome = .ok (us', b') →
      ∃ us, us' = us₀ ++ us ∧ Unified b ls gs us b' := by
  induction gs with
  | nil =>
    intro us₀ us' b b' hm h
    cases h
    refine ⟨[], by simp, le_refl _, fun m _ => (Instruction.retarget_id _).symm, fun _ _ _ => rfl, rfl, ?_, ?_, ?_⟩
    all_goals simp
  | cons g gs ih =>
    intro us₀ us' b b' hm h
    obtain ⟨⟨us₁, b₁⟩, h1, h2⟩ := Attempt.foldlM_cons_eq_ok.1 h
    obtain ⟨u, hus, hcase⟩ := uniteGroup_eq_ok h1
    simp only at hus hcase
    subst hus
    rcases hcase with ⟨rfl, rfl⟩ | hunite
    · obtain ⟨us, rfl, hrest⟩ := ih hm.tail h2
      exact ⟨u :: us, by simp, hrest.cons_singleton hm⟩
    · have hu := Board.unites_of_unite (fun l hl => (hm.sets g List.mem_cons_self l hl).2.2) hunite
      obtain ⟨us, rfl, hrest⟩ := ih (hm.of_unites hu) h2
      exact ⟨u :: us, by simp, hrest.cons_unites hm hu⟩

theorem foldlM_uniteGroup_ok {controlMask : Int} {ls : List Label} {gs : List (List Label)} :
    ∀ {us : List Label} {b : Board}, Mergeable b ls gs → (∀ g ∈ gs, b.Unitable controlMask g) →
      ∃ r, (gs.foldlM (uniteGroup controlMask) (us, b)).outcome = .ok r := by
  induction gs with
  | nil => exact fun {us b} _ _ => ⟨(us, b), rfl⟩
  | cons g gs ih =>
    intro us b hm hgs
    by_cases hone : ∃ u, g = [u]
    · obtain ⟨u, rfl⟩ := hone
      obtain ⟨r, hr⟩ := @ih (us ++ [u]) b hm.tail fun g hg => hgs g (List.mem_cons_of_mem _ hg)
      exact ⟨r, Attempt.foldlM_cons_eq_ok.2 ⟨(us ++ [u], b), rfl, hr⟩⟩
    · obtain ⟨⟨u, b₁⟩, hunite⟩ := (hgs g List.mem_cons_self).exists_unite
      have hu := Board.unites_of_unite (hgs g List.mem_cons_self).inside hunite
      have hrest : ∀ g ∈ gs, b₁.Unitable controlMask g := fun g' hg' =>
        (hgs g' (List.mem_cons_of_mem _ hg')).of_get fun l hl => by
          obtain ⟨hls, hset, -⟩ := hm.sets g' (List.mem_cons_of_mem _ hg') l hl
          exact hu.get_of_isSet (hm.valid _ hls) hset
      obtain ⟨r, hr⟩ := @ih (us ++ [u]) b₁ (hm.of_unites hu) hrest
      refine ⟨r, Attempt.foldlM_cons_eq_ok.2 ⟨(us ++ [u], b₁), ?_, hr⟩⟩
      unfold uniteGroup
      split
      · exact absurd ⟨_, rfl⟩ hone
      · exact Attempt.bind_eq_ok.2 ⟨(u, b₁), hunite, rfl⟩

/-! ## The whole draft -/

/-- The groups of SETs of a draft. -/
def gathered (d : Draft) : List (List Label) := (groups d.board d.sets).map (members d.board d.sets)

/-- The SET that a SET is united into; every other instruction is its own heir. -/
def heir (d : Draft) (controlMask : Int) (l : Label) : Label :=
  match (d.gathered.foldlM (uniteGroup controlMask) ([], d.board)).outcome with
  | .ok (us, _) => heirIn (d.gathered.zip us) l
  | .error _ => l

/-- The SETs of a draft keep to their masks. -/
def SetsInside (d : Draft) : Prop := ∀ l ∈ d.sets, (d.board.get l).drive.Inside

/-- The draft `d'` is `d` with its groups of SETs united; `heir` leads from the SETs of `d` to those of `d'`. -/
structure Merged (d d' : Draft) (us : List Label) (heir : Label → Label) : Prop where
  unified : Unified d.board d.list d.gathered us d'.board
  list : d'.list = sorted d'.board ((d.list.filter fun l => !(d.board.get l).isSet) ++ us)
  heir_eq : heir = heirIn (d.gathered.zip us)

theorem Linked.mergeable {d : Draft} (h : d.Linked) (hin : d.SetsInside) : Mergeable d.board d.list d.gathered := by
  have hmem : ∀ g ∈ d.gathered, ∃ k ∈ groups d.board d.sets, members d.board d.sets k = g := fun g hg => by
    simpa [gathered] using hg
  have hsub : ∀ g ∈ d.gathered, ∀ l ∈ g, l ∈ d.sets := fun g hg l hl => by
    obtain ⟨k, hk, rfl⟩ := hmem g hg
    exact ((mem_members hk).1 hl).1
  refine ⟨h.valid, fun g hg l hl => ?_, ?_, fun m hm l hl _ => (h.target m hm l hl).2.2, fun g hg l hl => ?_⟩
  · have := hsub g hg l hl
    exact ⟨(mem_sets.1 this).1, (mem_sets.1 this).2, hin l this⟩
  · refine List.pairwise_map.2 ((nodup_groups d.board d.sets).imp_of_mem fun hk hk' hne l hl hl' => hne ?_)
    exact ((mem_members hk).1 hl).2.symm.trans ((mem_members hk').1 hl').2
  · exact h.reached l (mem_sets.1 (hsub g hg l hl)).1

/-- SETs that can be united group by group can be merged. -/
theorem Linked.exists_mergeSets {d : Draft} {controlMask : Int} (h : d.Linked) (hin : d.SetsInside)
    (hunitable : ∀ g ∈ d.gathered, d.board.Unitable controlMask g) :
    ∃ d', (d.mergeSets controlMask).outcome = .ok d' := by
  have hunite : ∃ r, (d.gathered.foldlM (uniteGroup controlMask) ([], d.board)).outcome = .ok r :=
    foldlM_uniteGroup_ok (h.mergeable hin) hunitable
  obtain ⟨⟨us, b⟩, hr⟩ := hunite
  exact ⟨_, Attempt.bind_eq_ok.2 ⟨(us, b), hr, rfl⟩⟩

theorem Linked.merged {d d' : Draft} {controlMask : Int} (h : d.Linked) (hin : d.SetsInside)
    (hm : (d.mergeSets controlMask).outcome = .ok d') : ∃ us, d.Merged d' us (d.heir controlMask) := by
  obtain ⟨⟨us, b⟩, hfold, hd⟩ := Attempt.bind_eq_ok.1 hm
  obtain ⟨us', hus, hu⟩ := unified_of_foldlM (h.mergeable hin) hfold
  obtain rfl : us = us' := hus
  cases hd
  refine ⟨us, hu, rfl, ?_⟩
  funext l
  rw [heir, show (d.gathered.foldlM (uniteGroup controlMask) ([], d.board)).outcome = .ok (us, b) from hfold]

theorem heirIn_of_mem {pairs : List (List Label × Label)} (hdisj : pairs.Pairwise fun p q => List.Disjoint p.1 q.1)
    {g : List Label} {u l : Label} (hp : (g, u) ∈ pairs) (hl : l ∈ g) : heirIn pairs l = u := by
  induction pairs with
  | nil => cases hp
  | cons p pairs ih =>
    obtain ⟨hp', hdisj⟩ := List.pairwise_cons.1 hdisj
    rw [heirIn_cons]
    rcases List.mem_cons.1 hp with rfl | hp
    · rw [if_pos hl]
    · rw [if_neg fun h => hp' _ hp h hl, ih hdisj hp]

namespace Merged

variable {d d' : Draft} {us : List Label} {heir : Label → Label}

section

variable (h : d.Merged d' us heir) (hd : d.Linked) (hin : d.SetsInside)

include h

theorem exists_pair {k : Group} (hk : k ∈ groups d.board d.sets) :
    ∃ u, (members d.board d.sets k, u) ∈ d.gathered.zip us := by
  obtain ⟨i, hi, rfl⟩ := List.getElem_of_mem hk
  have hlen := h.unified.length
  rw [gathered, List.length_map] at hlen
  refine ⟨us[i], List.mem_iff_getElem.2 ⟨i, by simp [gathered]; omega, ?_⟩⟩
  simp [gathered]

theorem exists_group {u : Label} (hu : u ∈ us) :
    ∃ k ∈ groups d.board d.sets, (members d.board d.sets k, u) ∈ d.gathered.zip us := by
  obtain ⟨i, hi, rfl⟩ := List.getElem_of_mem hu
  have hlen := h.unified.length
  rw [gathered, List.length_map] at hlen
  refine ⟨(groups d.board d.sets)[i], List.getElem_mem _, List.mem_iff_getElem.2 ⟨i, by simp [gathered]; omega, ?_⟩⟩
  simp [gathered]

include hd hin

theorem heir_of_mem {g : List Label} {u l : Label} (hp : (g, u) ∈ d.gathered.zip us) (hl : l ∈ g) : heir l = u := by
  rw [h.heir_eq]
  refine heirIn_of_mem ?_ hp hl
  have := (hd.mergeable hin).disjoint
  rw [List.pairwise_iff_getElem] at this ⊢
  intro i j hi hj hij
  simp only [List.getElem_zip]
  exact this i j _ _ hij

theorem pair_heir {l : Label} (hl : l ∈ d.sets) :
    (members d.board d.sets (keyOf d.board d.sets l), heir l) ∈ d.gathered.zip us := by
  have hk : keyOf d.board d.sets l ∈ groups d.board d.sets := mem_groups.2 ⟨l, hl, rfl⟩
  obtain ⟨u, hu⟩ := h.exists_pair hk
  rwa [h.heir_of_mem hd hin hu ((mem_members hk).2 ⟨hl, rfl⟩)]

theorem heads {l : Label} (hl : l ∈ d.sets) :
    Heads d.board (members d.board d.sets (keyOf d.board d.sets l)) (heir l) d'.board :=
  h.unified.heads _ (h.pair_heir hd hin hl)

theorem mem_us {u : Label} : u ∈ us ↔ ∃ l ∈ d.sets, heir l = u := by
  constructor
  · intro hu
    obtain ⟨k, hk, hp⟩ := h.exists_group hu
    obtain ⟨l, hl, rfl⟩ := mem_groups.1 hk
    exact ⟨l, hl, h.heir_of_mem hd hin hp ((mem_members hk).2 ⟨hl, rfl⟩)⟩
  · rintro ⟨l, hl, rfl⟩
    exact (List.of_mem_zip (h.pair_heir hd hin hl)).2

omit hd hin in
theorem heir_of_not_isSet {l : Label} (hl : (d.board.get l).isSet = false) : heir l = l := by
  rw [h.heir_eq]
  refine heirIn_of_notMem fun g hg hlg => ?_
  rw [gathered, List.mem_map] at hg
  obtain ⟨k, hk, rfl⟩ := hg
  rw [(mem_sets.1 ((mem_members hk).1 hlg).1).2] at hl
  cases hl

omit hd hin in
/-- Old instructions stay, apart from the targets of jumps. -/
theorem get_eq {l : Label} (hl : l ∈ d.list) : d'.board.get l = (d.board.get l).retarget heir := by
  rw [h.unified.kept l hl, h.heir_eq]

theorem isSet_heir {l : Label} (hl : l ∈ d.list) : (d'.board.get (heir l)).isSet = (d.board.get l).isSet := by
  cases hset : (d.board.get l).isSet with
  | true => exact (h.heads hd hin (mem_sets.2 ⟨hl, hset⟩)).isSet
  | false => rw [h.heir_of_not_isSet hset, h.get_eq hl, Instruction.isSet_retarget, hset]

theorem time_heir {l : Label} (hl : l ∈ d.list) : d'.board.time (heir l) = d.board.time l := by
  cases hset : (d.board.get l).isSet with
  | true =>
    have hl' : l ∈ d.sets := mem_sets.2 ⟨hl, hset⟩
    have hk : keyOf d.board d.sets l ∈ groups d.board d.sets := mem_groups.2 ⟨l, hl', rfl⟩
    exact ((h.heads hd hin hl').time l ((mem_members hk).2 ⟨hl', rfl⟩)).symm
  | false => rw [h.heir_of_not_isSet hset, Board.time, h.get_eq hl, Instruction.time_retarget, Board.time]

/-- The heir of a SET is in the block of its group. -/
theorem block_heir {l : Label} (hl : l ∈ d.sets) :
    (d'.board.get (heir l)).block = (keyOf d.board d.sets l).block :=
  block_of_filterMap_members hl (h.heads hd hin hl).block

theorem mem_list {l : Label} : l ∈ d'.list ↔ ∃ x ∈ d.list, heir x = l := by
  rw [h.list, mem_sorted, List.mem_append, h.mem_us hd hin, List.mem_filter]
  constructor
  · rintro (⟨hl, hset⟩ | ⟨x, hx, rfl⟩)
    · exact ⟨l, hl, h.heir_of_not_isSet (by simpa using hset)⟩
    · exact ⟨x, (mem_sets.1 hx).1, rfl⟩
  · rintro ⟨x, hx, rfl⟩
    cases hset : (d.board.get x).isSet with
    | true => exact .inr ⟨x, mem_sets.2 ⟨hx, hset⟩, rfl⟩
    | false =>
      rw [h.heir_of_not_isSet hset]
      exact .inl ⟨hx, by simp [hset]⟩

theorem mem_sets_iff {l : Label} : l ∈ d'.sets ↔ ∃ x ∈ d.sets, heir x = l := by
  rw [mem_sets, h.mem_list hd hin]
  constructor
  · rintro ⟨⟨x, hx, rfl⟩, hset⟩
    exact ⟨x, mem_sets.2 ⟨hx, by rwa [h.isSet_heir hd hin hx] at hset⟩, rfl⟩
  · rintro ⟨x, hx, rfl⟩
    obtain ⟨hx, hset⟩ := mem_sets.1 hx
    exact ⟨⟨x, hx, rfl⟩, by rwa [h.isSet_heir hd hin hx]⟩

theorem nodup : d'.list.Nodup := by
  rw [h.list, (perm_sorted _ _).nodup_iff]
  refine (hd.nodup.filter _).append h.unified.nodup fun l hl hu => ?_
  obtain ⟨hl, hset⟩ := List.mem_filter.1 hl
  obtain ⟨x, hx, rfl⟩ := (h.mem_us hd hin).1 hu
  have hset' := (h.heads hd hin hx).isSet
  rw [h.get_eq hl, Instruction.isSet_retarget] at hset'
  rw [hset'] at hset
  cases hset

/-- Jumps go to the heirs of their targets, which know of them. -/
theorem linked : d'.Linked := by
  have hmem : ∀ {x}, x ∈ d.list → heir x ∈ d'.list := fun hx => (h.mem_list hd hin).2 ⟨_, hx, rfl⟩
  have hself : ∀ {x}, (d.board.get x).target? ≠ none → heir x = x := fun {x} hx => by
    refine h.heir_of_not_isSet ?_
    rw [← Bool.not_eq_true]
    exact fun hset => hx (Instruction.target?_of_isSet hset)
  refine ⟨fun l hl => ?_, h.nodup hd hin, fun l hl g hg => ?_, fun g hg l hl => ?_⟩
  · obtain ⟨x, hx, rfl⟩ := (h.mem_list hd hin).1 hl
    cases hset : (d.board.get x).isSet with
    | true => exact (h.heads hd hin (mem_sets.2 ⟨hx, hset⟩)).lt_size
    | false =>
      rw [h.heir_of_not_isSet hset]
      exact lt_of_lt_of_le (hd.valid x hx) h.unified.size_le
  · obtain ⟨x, hx, rfl⟩ := (h.mem_list hd hin).1 hl
    have hset : (d.board.get x).isSet = false := by
      rw [← h.isSet_heir hd hin hx, ← Bool.not_eq_true]
      exact fun hset => by simp [Instruction.target?_of_isSet hset] at hg
    rw [h.heir_of_not_isSet hset] at hg ⊢
    rw [h.get_eq hx, Instruction.target?_retarget, Option.map_eq_some_iff] at hg
    obtain ⟨y, hy, rfl⟩ := hg
    obtain ⟨hyl, hland, hreach⟩ := hd.target x hx y hy
    refine ⟨hmem hyl, ?_, ?_⟩
    · rcases hland with hset | hstop
      · exact .inl (by rwa [h.isSet_heir hd hin hyl])
      · have hset : (d.board.get y).isSet = false := by rw [Instruction.isSet, hstop]
        rw [h.heir_of_not_isSet hset, h.get_eq hyl, Instruction.retarget, hstop]
        exact .inr hstop
    · cases hset : (d.board.get y).isSet with
      | true =>
        have hy' := mem_sets.2 ⟨hyl, hset⟩
        have hk : keyOf d.board d.sets y ∈ groups d.board d.sets := mem_groups.2 ⟨y, hy', rfl⟩
        rw [(h.heads hd hin hy').reachedBy]
        exact List.mem_flatMap.2 ⟨y, (mem_members hk).2 ⟨hy', rfl⟩, hreach⟩
      | false =>
        rw [h.heir_of_not_isSet hset, h.get_eq hyl, Instruction.reachedBy_retarget]
        exact hreach
  · obtain ⟨x, hx, rfl⟩ := (h.mem_list hd hin).1 hg
    -- the jump went to `x`, or to another SET of the group of `x`
    obtain ⟨y, hy, hyx, hly⟩ : ∃ y ∈ d.list, heir y = heir x ∧ l ∈ (d.board.get y).reachedBy := by
      cases hset : (d.board.get x).isSet with
      | true =>
        have hx' := mem_sets.2 ⟨hx, hset⟩
        have hk : keyOf d.board d.sets x ∈ groups d.board d.sets := mem_groups.2 ⟨x, hx', rfl⟩
        rw [(h.heads hd hin hx').reachedBy] at hl
        obtain ⟨y, hy, hly⟩ := List.mem_flatMap.1 hl
        exact ⟨y, (mem_sets.1 ((mem_members hk).1 hy).1).1, h.heir_of_mem hd hin (h.pair_heir hd hin hx') hy, hly⟩
      | false =>
        rw [h.heir_of_not_isSet hset, h.get_eq hx, Instruction.reachedBy_retarget] at hl
        exact ⟨x, hx, rfl, hl⟩
    obtain ⟨hll, htarget⟩ := hd.reached y hy l hly
    have hl' : heir l = l := hself (by rw [htarget]; simp)
    refine ⟨by rw [← hl']; exact hmem hll, ?_⟩
    rw [h.get_eq hll, Instruction.target?_retarget, htarget, Option.map_some, hyx]

theorem setsInside : d'.SetsInside := by
  intro l hl
  obtain ⟨x, hx, rfl⟩ := (h.mem_sets_iff hd hin).1 hl
  exact (h.heads hd hin hx).drive.inside

/-! ## The first SET of a tick -/

/-- The united SETs, seen by tick and block, are the groups in their order. -/
theorem map_us : us.map (fun u => (⟨d'.board.time u, (d'.board.get u).block⟩ : Group)) = groups d.board d.sets := by
  have hlen : us.length = (groups d.board d.sets).length := by
    rw [h.unified.length, gathered, List.length_map]
  refine List.ext_getElem (by simpa using hlen) fun i hi hi' => ?_
  rw [List.getElem_map]
  have hu : us[i] ∈ us := List.getElem_mem _
  have hk : (groups d.board d.sets)[i] ∈ groups d.board d.sets := List.getElem_mem _
  obtain ⟨l, hl, hkey⟩ := mem_groups.1 hk
  have hpair : (members d.board d.sets (groups d.board d.sets)[i], us[i]) ∈ d.gathered.zip us := by
    refine List.mem_iff_getElem.2 ⟨i, by simp [gathered]; omega, ?_⟩
    simp [gathered]
  have hheir : heir l = us[i] := h.heir_of_mem hd hin hpair ((mem_members hk).2 ⟨hl, hkey⟩)
  rw [← hheir, h.time_heir hd hin (mem_sets.1 hl).1, h.block_heir hd hin hl, ← hkey]
  rfl

/-- The SETs of a tick, seen by block, are the groups of the tick in their order. -/
theorem map_sets_at (time : Int) :
    (d'.sets.filter fun l => d'.board.time l == time).map
        (fun u => (⟨d'.board.time u, (d'.board.get u).block⟩ : Group)) =
      (groups d.board d.sets).filter fun g => g.time == time := by
  have hsets : d'.sets.filter (fun l => d'.board.time l == time) = us.filter fun l => d'.board.time l == time := by
    rw [Draft.sets, List.filter_filter, h.list]
    unfold Draft.sorted
    rw [Sort.filter_sortBy]
    · rw [List.filter_append]
      have hnone : (d.list.filter fun l => !(d.board.get l).isSet).filter
          (fun l => d'.board.time l == time && (d'.board.get l).isSet) = [] := by
        refine List.filter_eq_nil_iff.2 fun l hl => ?_
        obtain ⟨hl, hset⟩ := List.mem_filter.1 hl
        rw [h.get_eq hl, Instruction.isSet_retarget]
        simp at hset
        simp [hset]
      rw [hnone, List.nil_append]
      refine List.filter_congr fun u hu => ?_
      obtain ⟨x, hx, rfl⟩ := (h.mem_us hd hin).1 hu
      rw [(h.heads hd hin hx).isSet, Bool.and_true]
    · intro x _ y _ hx hy
      simp only [Bool.and_eq_true, beq_iff_eq, Board.time_eq] at hx hy
      rw [Instruction.before_iff, hx.1, hy.1, Instruction.opcode_of_isSet hx.2, Instruction.opcode_of_isSet hy.2]
      simp
  rw [hsets, ← h.map_us hd hin, List.filter_map]
  rfl

theorem hostAt_eq (time : Int) : hostAt d'.board d'.sets time = hostAt d.board d.sets time := by
  rw [← findSome?_groups d.board d.sets time, ← h.map_sets_at hd hin time, List.findSome?_map, hostAt,
    ← List.head?_filterMap, ← List.head?_filterMap, List.filterMap_filter]
  refine congrArg List.head? (List.filterMap_congr fun l _ => ?_)
  by_cases hl : (d'.board.get l).time = time <;> simp [hl, Board.time_eq]

end

end Merged

/-- A SET that has no block, or that of the host of its tick. -/
def Leads (d : Draft) (l : Label) : Prop :=
  l ∈ d.sets ∧ ((d.board.get l).block = none ∨ (d.board.get l).block = hostAt d.board d.sets (d.board.time l))

namespace Merged

variable {d d' : Draft} {us : List Label} {heir : Label → Label}

theorem leads_heir (h : d.Merged d' us heir) (hd : d.Linked) (hin : d.SetsInside) {l : Label} (hl : d.Leads l) :
    d'.Leads (heir l) := by
  obtain ⟨hl, hblock⟩ := hl
  refine ⟨(h.mem_sets_iff hd hin).2 ⟨l, hl, rfl⟩, .inr ?_⟩
  rw [h.block_heir hd hin hl, h.hostAt_eq hd hin, h.time_heir hd hin (mem_sets.1 hl).1, keyOf]
  rcases hblock with hb | hb
  · rw [hb]
    rfl
  · rw [hb, Option.or_self]

/-- After a merge the leading SET is the first one of its tick. -/
theorem first_of_leads (h : d.Merged d' us heir) (hd : d.Linked) (hin : d.SetsInside) {l : Label} (hl : d'.Leads l) :
    (d'.sets.filter fun x => d'.board.time x == d'.board.time l).head? = some l := by
  obtain ⟨hl, hblock⟩ := hl
  obtain ⟨x, hx, rfl⟩ := (h.mem_sets_iff hd hin).1 hl
  have htime := h.time_heir hd hin (mem_sets.1 hx).1
  have hhead := head?_groups (⟨x, hx, rfl⟩ : ∃ l ∈ d.sets, d.board.time l = d.board.time x)
  rw [← h.map_sets_at hd hin, List.head?_map, Option.map_eq_some_iff] at hhead
  obtain ⟨y, hy, hkey⟩ := hhead
  rw [htime, hy]
  -- the first SET of the tick and the leading one are in the same group, so they are one
  have hy' : y ∈ d'.sets := (List.mem_filter.1 (List.mem_of_head? hy)).1
  obtain ⟨z, hz, rfl⟩ := (h.mem_sets_iff hd hin).1 hy'
  obtain ⟨hkt, hkb⟩ := Group.mk.inj hkey
  rw [h.time_heir hd hin (mem_sets.1 hz).1] at hkt
  rw [h.block_heir hd hin hz] at hkb
  have hkx : keyOf d.board d.sets x = ⟨d.board.time x, hostAt d.board d.sets (d.board.time x)⟩ := by
    rw [h.block_heir hd hin hx, h.hostAt_eq hd hin, htime] at hblock
    rcases hblock with hb | hb
    · obtain ⟨h1, h2⟩ := Option.or_eq_none_iff.1 hb
      rw [keyOf, h1, h2]
      rfl
    · rw [← hb]
      rfl
  have hkz : keyOf d.board d.sets z = keyOf d.board d.sets x := by
    rw [hkx, ← hkb, ← hkt]
    rfl
  have hk : keyOf d.board d.sets x ∈ groups d.board d.sets := mem_groups.2 ⟨x, hx, rfl⟩
  rw [h.heir_of_mem hd hin (h.pair_heir hd hin hx) ((mem_members hk).2 ⟨hz, hkz⟩)]

end Merged

end PulseSequencer.Draft
