import PulseSequencer.Proofs.Mirror
import PulseSequencer.Proofs.Settling

/-!
# Placement under other labels

Drafts that are the same under other labels, the END of one at an earlier tick than that of the other, are placed in the
same way: what is placed without meeting the earlier END does not meet the later one either.

* `Block.mirror`, `TickLine.Mirrored` : blocks and lines of ticks under other labels;
* `TickLine.Mirrored.settle` : one instruction finds its tick;
* `Draft.Mirrored.place` : a whole draft is placed.
-/

namespace PulseSequencer

/-- What comes after everything else is last. -/
theorem Sort.pairwise_sortBy_last {α : Type} {le : α → α → Bool} {p : α → Prop} {xs : List α}
    (hle : ∀ x ∈ xs, ∀ y ∈ xs, p x → ¬ p y → le x y = false ∧ le y x = true)
    (hone : xs.Pairwise fun x y => p x → ¬ p y) : (sortBy le xs).Pairwise fun x _ => ¬ p x := by
  have hinsert : ∀ {x : α} {ys : List α}, (∀ y ∈ ys, (p x → ¬ p y) ∧ (p x → le x y = false) ∧
      (¬ p x → p y → le x y = true)) → ys.Pairwise (fun x _ => ¬ p x) →
      (insertBy le x ys).Pairwise fun x _ => ¬ p x := by
    intro x ys hx hys
    induction ys with
    | nil => exact List.pairwise_singleton _ _
    | cons y ys ih =>
      obtain ⟨hpx, hlast, hfirst⟩ := hx y List.mem_cons_self
      unfold insertBy
      split
      · rename_i hxy
        refine List.pairwise_cons.2 ⟨fun _ _ hp => ?_, hys⟩
        rw [hlast hp] at hxy
        cases hxy
      · rename_i hxy
        refine List.pairwise_cons.2 ⟨fun _ _ hp => ?_, ih (fun z hz => hx z (List.mem_cons_of_mem _ hz)) hys.of_cons⟩
        exact hxy (hfirst (fun hp' => hpx hp' hp) hp)
  induction xs with
  | nil => exact .nil
  | cons x xs ih =>
    obtain ⟨hx, hxs⟩ := List.pairwise_cons.1 hone
    have hmem := fun y (hy : y ∈ xs) => List.mem_cons_of_mem x hy
    refine hinsert (fun y hy => ?_) (ih (fun y hy z hz => hle y (hmem y hy) z (hmem z hz)) hxs)
    have hy := mem_sortBy.1 hy
    exact ⟨hx y hy, fun hp => (hle x List.mem_cons_self y (hmem y hy) hp (hx y hy hp)).1,
      fun hp hp' => (hle y (hmem y hy) x List.mem_cons_self hp' hp).2⟩

/-! ## Blocks -/

namespace Block

/-- The block under other labels, the final one at tick `e`. -/
def mirror (φ : Label → Label) (e : Int) (x : Block) : Block :=
  if x.name = endName then ⟨endName, e, e, e, x.members.map φ⟩ else { x with members := x.members.map φ }

variable {φ : Label → Label} {e e' : Int} {S : Set Label} {b b' : Board} {ls : List Label} {x : Block}

theorem name_mirror (x : Block) : (x.mirror φ e).name = x.name := by
  unfold mirror
  split
  · rename_i h
    exact h.symm
  · rfl

theorem mirror_of_ne (h : x.name ≠ endName) : x.mirror φ e = { x with members := x.members.map φ } := if_neg h

theorem members_mirror (x : Block) : (x.mirror φ e).members = x.members.map φ := by
  unfold mirror
  split <;> rfl

theorem moveBy_mirror (h : x.name ≠ endName) (offset : Int) :
    (x.mirror φ e).moveBy offset = (x.moveBy offset).mirror φ e := by
  rw [mirror_of_ne h, mirror_of_ne (show (x.moveBy offset).name ≠ endName from h)]
  rfl

theorem isMarker_mirror (i : Instruction) : isMarker (i.mirror φ e) = isMarker i := by
  rw [isMarker, isMarker, Instruction.isSet_mirror, Instruction.drive_mirror]

section Collect

variable (h : b.Mirrored φ e S b')

include h

theorem time_of_ne_stop {l : Label} (hl : l ∈ S) (hact : (b.get l).action ≠ .stop) : b'.time (φ l) = b.time l := by
  rw [Board.time, h.cell l hl]
  exact Instruction.time_mirror hact

theorem ofMembers_mirror {name : String} (hname : name ≠ endName) (hls : ∀ l ∈ ls, l ∈ S ∧ (b.get l).action ≠ .stop) :
    ofMembers b' name (ls.map φ) = (ofMembers b name ls).mirror φ e := by
  have htime : ∀ l ∈ ls, b'.time (φ l) = b.time l := fun l hl => time_of_ne_stop h (hls l hl).1 (hls l hl).2
  have hsort : Sort.sortBy (fun x y => decide (b'.time x ≤ b'.time y)) (ls.map φ) =
      (Sort.sortBy (fun x y => decide (b.time x ≤ b.time y)) ls).map φ :=
    Sort.sortBy_map fun x hx y hy => by rw [htime x hx, htime y hy]
  have hmem : ∀ l ∈ Sort.sortBy (fun x y => decide (b.time x ≤ b.time y)) ls, l ∈ ls := fun l => Sort.mem_sortBy.1
  unfold ofMembers
  simp only
  rw [hsort]
  generalize Sort.sortBy (fun x y => decide (b.time x ≤ b.time y)) ls = ms at hmem
  cases ms with
  | nil => exact (mirror_of_ne (show (Block.mk name 0 0 0 []).name ≠ endName from hname)).symm
  | cons first rest =>
    have hlast : rest.getLastD first ∈ ls := hmem _ (by cases rest <;> simp [List.getLastD])
    have hanchor : anchorOf b' name (φ first) ((first :: rest).map φ) = anchorOf b name first (first :: rest) := by
      unfold anchorOf
      simp only
      rw [if_neg hname, if_neg hname, ← List.map_reverse, List.find?_map]
      have hfind : ((first :: rest).reverse.find? ((fun l => !isMarker (b'.get l)) ∘ φ)) =
          (first :: rest).reverse.find? fun l => !isMarker (b.get l) := by
        refine List.find?_congr fun l hl => ?_
        rw [Function.comp_apply, h.cell l (hls l (hmem l (List.mem_reverse.1 hl))).1, isMarker_mirror]
      rw [hfind]
      cases hl : (first :: rest).reverse.find? fun l => !isMarker (b.get l) with
      | none => exact htime _ (hmem _ List.mem_cons_self)
      | some l => exact htime l (hmem l (List.mem_reverse.1 (List.mem_of_find?_eq_some hl)))
    rw [List.map_cons] at hanchor ⊢
    simp only
    have hlast' : (rest.map φ).getLastD (φ first) = φ (rest.getLastD first) := by
      rw [List.getLastD_eq_getLast?, List.getLastD_eq_getLast?, List.getLast?_map]
      cases rest.getLast? <;> rfl
    rw [hanchor, htime _ (hmem _ List.mem_cons_self), hlast', htime _ hlast, mirror_of_ne (by exact hname)]
    rfl

end Collect

/-! ### Collecting blocks -/

/-- The final block holds the END alone, the others hold no END. -/
structure Regular (S : Set Label) (b : Board) (z : Label) (e : Int) (x : Block) : Prop where
  ending : x.name = endName → x = ⟨endName, e, e, e, [z]⟩
  member : x.name ≠ endName → ∀ l ∈ x.members, l ∈ S ∧ (b.get l).action ≠ .stop

variable {z : Label} {e₀ : Int}

theorem exists_start (b : Board) (name : String) (hne : ls ≠ []) :
    ∃ l ∈ ls, (ofMembers b name ls).start = b.time l := by
  have hmem : ∀ l ∈ Sort.sortBy (fun x y => decide (b.time x ≤ b.time y)) ls, l ∈ ls := fun l => Sort.mem_sortBy.1
  have hlen : (Sort.sortBy (fun x y => decide (b.time x ≤ b.time y)) ls).length = ls.length := Sort.length_sortBy ls
  unfold ofMembers
  simp only
  cases hsort : Sort.sortBy (fun x y => decide (b.time x ≤ b.time y)) ls with
  | nil =>
    rw [hsort] at hlen
    exact absurd (List.length_eq_zero_iff.1 hlen.symm) hne
  | cons first rest => exact ⟨first, hmem first (by rw [hsort]; exact List.mem_cons_self), rfl⟩

theorem before_of_lt [Collation] {x y : Block} (h : x.start < y.start) : before x y = true ∧ before y x = false := by
  unfold before
  rw [decide_eq_true h, decide_eq_false (lt_asymm h), beq_false_of_ne h.ne']
  exact ⟨rfl, rfl⟩

section Closes

variable (hc : b.Closes z e₀ ls) (hnodup : ls.Nodup)

include hc hnodup

theorem filter_endName : ls.filter (fun l => (b.get l).block == some endName) = [z] := by
  have hall : ∀ l ∈ ls.filter fun l => (b.get l).block == some endName, l = z := fun l hl => by
    obtain ⟨hl, hblock⟩ := List.mem_filter.1 hl
    by_contra hne
    exact (hc.other l hl hne).2.1 (beq_iff_eq.1 hblock)
  have hmem : z ∈ ls.filter fun l => (b.get l).block == some endName :=
    List.mem_filter.2 ⟨hc.mem, by rw [hc.block]; exact beq_self_eq_true _⟩
  exact List.Perm.eq_singleton ((List.perm_ext_iff_of_nodup (hnodup.filter _) (List.nodup_singleton z)).2 fun l =>
    ⟨fun hl => List.mem_singleton.2 (hall l hl), fun hl => List.mem_singleton.1 hl ▸ hmem⟩)

theorem ofMembers_endName :
    ofMembers b endName (ls.filter fun l => (b.get l).block == some endName) = ⟨endName, e₀, e₀, e₀, [z]⟩ := by
  rw [filter_endName hc hnodup]
  change Block.mk endName (b.time z) (b.time z) (anchorOf b endName z [z]) [z] = _
  rw [anchorOf, if_pos rfl]
  change Block.mk endName (b.time z) (b.time z) (b.time z) [z] = _
  rw [hc.time]

theorem regular_ofMembers (hls : ∀ l ∈ ls, l ∈ S) (name : String) :
    Regular S b z e₀ (ofMembers b name (ls.filter fun l => (b.get l).block == some name)) where
  ending hname := by
    rw [name_ofMembers] at hname
    rw [hname, ofMembers_endName hc hnodup]
  member hname l hl := by
    rw [name_ofMembers] at hname
    rw [members_ofMembers, Sort.mem_sortBy, List.mem_filter] at hl
    refine ⟨hls l hl.1, (hc.other l hl.1 fun heq => hname ?_).1⟩
    rw [heq, hc.block] at hl
    exact (Option.some.inj (beq_iff_eq.1 hl.2)).symm

theorem regular_of_mem_collect [Collation] (hls : ∀ l ∈ ls, l ∈ S) {x : Block} (hx : x ∈ collect b ls) :
    x.Regular S b z e₀ := by
  unfold collect at hx
  rw [Sort.mem_sortBy] at hx
  obtain ⟨name, -, rfl⟩ := List.mem_map.1 hx
  exact regular_ofMembers hc hnodup hls name

omit hnodup in
/-- Every other block starts before the final one. -/
theorem start_lt {name : String} (hname : name ≠ endName)
    (hmem : name ∈ Draft.distinct (ls.filterMap fun l => (b.get l).block)) :
    (ofMembers b name (ls.filter fun l => (b.get l).block == some name)).start < e₀ := by
  obtain ⟨l, hl, hblock⟩ := List.mem_filterMap.1 (Draft.mem_distinct.1 hmem)
  have hne : ls.filter (fun l => (b.get l).block == some name) ≠ [] :=
    List.ne_nil_of_mem (List.mem_filter.2 ⟨hl, by rw [hblock]; exact beq_self_eq_true _⟩)
  obtain ⟨x, hx, hstart⟩ := exists_start b name hne
  obtain ⟨hx, hxname⟩ := List.mem_filter.1 hx
  rw [hstart]
  refine (hc.other x hx fun heq => hname ?_).2.2
  rw [heq, hc.block] at hxname
  exact (Option.some.inj (beq_iff_eq.1 hxname)).symm

theorem start_endName : (ofMembers b endName (ls.filter fun l => (b.get l).block == some endName)).start = e₀ := by
  rw [ofMembers_endName hc hnodup]

/-- The final block is the last one. -/
theorem pairwise_collect [Collation] : (collect b ls).Pairwise fun x _ => x.name ≠ endName := by
  have hnames : ∀ name : String, (ofMembers b name (ls.filter fun l => (b.get l).block == some name)).name = name :=
    fun name => name_ofMembers _ _ _
  refine Sort.pairwise_sortBy_last (fun x hx y hy hpx hpy => ?_) ?_
  · obtain ⟨n, -, rfl⟩ := List.mem_map.1 hx
    obtain ⟨m, hm, rfl⟩ := List.mem_map.1 hy
    rw [hnames] at hpx hpy
    have hlt := start_lt hc hpy hm
    rw [← start_endName hc hnodup, ← hpx] at hlt
    exact (before_of_lt hlt).symm
  · refine List.pairwise_map.2 ((Draft.nodup_distinct _).imp fun {n m} hne hn hm => hne ?_)
    rw [hnames] at hn hm
    rw [hn, hm]

section Names

variable (hls : ∀ l ∈ ls, l ∈ S)

include hls

/-- The block of one name under other labels. -/
theorem ofMembers_filter_mirror (h : b.Mirrored φ e S b') (name : String) :
    ofMembers b' name ((ls.filter fun l => (b.get l).block == some name).map φ) =
      (ofMembers b name (ls.filter fun l => (b.get l).block == some name)).mirror φ e := by
  by_cases hname : name = endName
  · have htime : b'.time (φ z) = e := by
      rw [Board.time, h.cell z (hls z hc.mem)]
      exact if_pos hc.stop
    rw [hname, ofMembers_endName hc hnodup, filter_endName hc hnodup, mirror, if_pos rfl]
    change Block.mk endName (b'.time (φ z)) (b'.time (φ z)) (anchorOf b' endName (φ z) [φ z]) [φ z] = _
    rw [anchorOf, if_pos rfl]
    change Block.mk endName (b'.time (φ z)) (b'.time (φ z)) (b'.time (φ z)) [φ z] = _
    rw [htime]
    rfl
  · refine ofMembers_mirror h hname fun l hl => ?_
    have := (regular_ofMembers hc hnodup hls name).member (by rwa [name_ofMembers]) l
    rw [members_ofMembers, Sort.mem_sortBy] at this
    exact this hl

omit hls in
/-- Blocks keep their order: the final one comes last in both. -/
theorem before_mirror [Collation] (he : e₀ ≤ e) {n m : String}
    (hn : n ∈ Draft.distinct (ls.filterMap fun l => (b.get l).block))
    (hm : m ∈ Draft.distinct (ls.filterMap fun l => (b.get l).block)) :
    let x := ofMembers b n (ls.filter fun l => (b.get l).block == some n)
    let y := ofMembers b m (ls.filter fun l => (b.get l).block == some m)
    before (x.mirror φ e) (y.mirror φ e) = before x y := by
  simp only
  have hfinal : ∀ k, k ≠ endName → k ∈ Draft.distinct (ls.filterMap fun l => (b.get l).block) →
      let x := ofMembers b k (ls.filter fun l => (b.get l).block == some k)
      let y := ofMembers b endName (ls.filter fun l => (b.get l).block == some endName)
      x.start < y.start ∧ (x.mirror φ e).start < (y.mirror φ e).start := by
    intro k hk hmem
    simp only
    have hlt := start_lt hc hk hmem
    rw [ofMembers_endName hc hnodup, mirror_of_ne (by rwa [name_ofMembers])]
    exact ⟨hlt, lt_of_lt_of_le hlt he⟩
  by_cases hnend : n = endName
  · by_cases hmend : m = endName
    · rw [hnend, hmend]
      simp [before, name_mirror]
    · rw [hnend]
      obtain ⟨hlt, hlt'⟩ := hfinal m hmend hm
      exact (before_of_lt hlt').2.trans (before_of_lt hlt).2.symm
  · by_cases hmend : m = endName
    · rw [hmend]
      obtain ⟨hlt, hlt'⟩ := hfinal n hnend hn
      exact (before_of_lt hlt').1.trans (before_of_lt hlt).1.symm
    · rw [mirror_of_ne (by rwa [name_ofMembers]), mirror_of_ne (by rwa [name_ofMembers])]
      rfl

theorem collect_mirror [Collation] (h : b.Mirrored φ e S b') (he : e₀ ≤ e) :
    collect b' (ls.map φ) = (collect b ls).map (mirror φ e) := by
  have hblock : ∀ l ∈ ls, (b'.get (φ l)).block = (b.get l).block := fun l hl => by
    rw [h.cell l (hls l hl), Instruction.block_mirror]
  have hnames : (ls.map φ).filterMap (fun l => (b'.get l).block) = ls.filterMap fun l => (b.get l).block := by
    rw [List.filterMap_map]
    exact List.filterMap_congr hblock
  have hone : ∀ name, ofMembers b' name ((ls.map φ).filter fun l => (b'.get l).block == some name) =
      (ofMembers b name (ls.filter fun l => (b.get l).block == some name)).mirror φ e := fun name => by
    rw [Draft.Mirrored.filter_map_eq fun l hl => by rw [hblock l hl]]
    exact ofMembers_filter_mirror hc hnodup hls h name
  unfold collect
  simp only
  rw [hnames, List.map_congr_left fun name _ => hone name]
  change Sort.sortBy before (List.map (mirror φ e ∘ _) _) = _
  rw [← List.map_map]
  refine Sort.sortBy_map fun x hx y hy => ?_
  obtain ⟨n, hn, rfl⟩ := List.mem_map.1 hx
  obtain ⟨m, hm, rfl⟩ := List.mem_map.1 hy
  exact before_mirror hc hnodup he hn hm

end Names

end Closes

/-! ### Separating blocks -/

theorem moveMembers_mirror {offset : Int} : ∀ {b b' : Board}, b.Mirrored φ e S b' →
    (∀ l ∈ ls, l ∈ S ∧ (b.get l).action ≠ .stop) →
    (moveMembers offset b ls).Mirrored φ e S (moveMembers offset b' (ls.map φ)) := by
  induction ls with
  | nil => exact fun h _ => h
  | cons l ls ih =>
    intro b b' h hls
    obtain ⟨hl, hact⟩ := hls l List.mem_cons_self
    refine ih (h.modify hl ?_ (h.closed l hl)) fun m hm => ?_
    · rw [Instruction.mirror_setTime hact, Instruction.time_mirror hact]
    · obtain ⟨hm, hact'⟩ := hls m (List.mem_cons_of_mem _ hm)
      refine ⟨hm, ?_⟩
      rw [Board.get_modify]
      split <;> exact hact'

theorem Regular.moveBy (h : x.Regular S b z e₀) {offset : Int} (hoffset : x.name = endName → offset = 0)
    (hb : b.Retimed b') : (x.moveBy offset).Regular S b' z e₀ where
  ending hname := by
    rw [hoffset hname, moveBy_zero]
    exact h.ending hname
  member hname l hl := by
    rw [hb.action_eq]
    exact h.member hname l hl

theorem separateAfter_mirror (he : e₀ ≤ e) {xs : List Block} : ∀ {previous : Block} {b b' b₁ : Board} {ys : List Block},
    b.Mirrored φ e S b' → (∀ x ∈ xs, x.Regular S b z e₀) → ((previous :: xs).Pairwise fun x _ => x.name ≠ endName) →
    (separateAfter previous b xs).outcome = .ok (ys, b₁) →
    ∃ b₁', (separateAfter (previous.mirror φ e) b' (xs.map (mirror φ e))).outcome = .ok (ys.map (mirror φ e), b₁') ∧
      b₁.Mirrored φ e S b₁' := by
  induction xs with
  | nil =>
    intro previous b b' b₁ ys h _ _ hok
    cases hok
    exact ⟨b', rfl, h⟩
  | cons x xs ih =>
    intro previous b b' b₁ ys h hreg hlast hok
    have hprev : previous.name ≠ endName := (List.pairwise_cons.1 hlast).1 x List.mem_cons_self
    have hx := hreg x List.mem_cons_self
    have hfinish : (previous.mirror φ e).finish = previous.finish := by rw [mirror_of_ne hprev]
    unfold separateAfter at hok
    rw [List.map_cons, separateAfter, hfinish, name_mirror]
    split at hok
    · rename_i hlt
      obtain ⟨⟨zs, c⟩, hrest, hok⟩ := Attempt.bind_eq_ok.1 hok
      cases hok
      obtain ⟨b₁', hrest', h₁⟩ := ih h (fun y hy => hreg y (List.mem_cons_of_mem _ hy)) hlast.of_cons hrest
      have hlt' : previous.finish < (x.mirror φ e).start := by
        by_cases hname : x.name = endName
        · rw [hx.ending hname] at hlt ⊢
          exact lt_of_lt_of_le hlt he
        · rwa [mirror_of_ne hname]
      rw [if_pos hlt']
      exact ⟨b₁', Attempt.bind_eq_ok.2 ⟨_, hrest', rfl⟩, h₁⟩
    · rename_i hlt
      split at hok
      · cases hok
      · rename_i hname
        have hstart : (x.mirror φ e).start = x.start := by rw [mirror_of_ne hname]
        obtain ⟨-, -, hok⟩ := Attempt.bind_eq_ok.1 hok
        obtain ⟨⟨zs, c⟩, hrest, hok⟩ := Attempt.bind_eq_ok.1 hok
        cases hok
        have hmoved : (moveMembers (previous.finish - x.start + 1) b x.members).Mirrored φ e S
            (moveMembers (previous.finish - x.start + 1) b' (x.members.map φ)) := moveMembers_mirror h (hx.member hname)
        have hretimed := retimed_moveMembers (previous.finish - x.start + 1) x.members b
        have hreg' : ∀ y ∈ xs,
            y.Regular S (moveMembers (previous.finish - x.start + 1) b x.members) z e₀ := fun y hy => by
          rw [← moveBy_zero y]
          exact (hreg y (List.mem_cons_of_mem _ hy)).moveBy (fun _ => rfl) hretimed
        have hlast' : (x.moveBy (previous.finish - x.start + 1) :: xs).Pairwise fun x _ => x.name ≠ endName :=
          List.pairwise_cons.2 ⟨(List.pairwise_cons.1 hlast.of_cons).1, hlast.of_cons.of_cons⟩
        obtain ⟨b₁', hrest', h₁⟩ := ih hmoved hreg' hlast' hrest
        rw [if_neg (by rwa [hstart]), if_neg hname, hstart]
        simp only [moveBy_mirror hname, members_mirror]
        exact ⟨b₁', Attempt.bind_eq_ok.2 ⟨_, rfl, Attempt.bind_eq_ok.2 ⟨_, hrest', rfl⟩⟩, h₁⟩

theorem separate_mirror (h : b.Mirrored φ e S b') (he : e₀ ≤ e) {xs ys : List Block} {b₁ : Board}
    (hreg : ∀ x ∈ xs, x.Regular S b z e₀) (hlast : xs.Pairwise fun x _ => x.name ≠ endName)
    (hok : (separate b xs).outcome = .ok (ys, b₁)) :
    ∃ b₁', (separate b' (xs.map (mirror φ e))).outcome = .ok (ys.map (mirror φ e), b₁') ∧ b₁.Mirrored φ e S b₁' := by
  unfold separate at hok
  split at hok
  · cases hok
    exact ⟨b', rfl, h⟩
  · rename_i first rest
    obtain ⟨⟨zs, c⟩, hrest, hok⟩ := Attempt.bind_eq_ok.1 hok
    cases hok
    obtain ⟨b₁', hrest', h₁⟩ := separateAfter_mirror he h (fun y hy => hreg y (List.mem_cons_of_mem _ hy)) hlast hrest
    exact ⟨b₁', Attempt.bind_eq_ok.2 ⟨_, hrest', rfl⟩, h₁⟩

end Block

/-! ## Lines of ticks -/

namespace TickLine

/-- The tick of an instruction once the END stands at `e` instead of `e₀`. -/
def moveEnd (e₀ e tick : Int) : Int := if tick = e₀ then e else tick

/-- The line `t'` is `t` under other labels, with the END at tick `e` instead of `e₀`. -/
structure Mirrored (φ : Label → Label) (e₀ e : Int) (S : Set Label) (b : Board) (t t' : TickLine) : Prop where
  le : e₀ ≤ e
  length : t.length = e₀ + 1
  length' : t'.length = e + 1
  blocks : t'.blocks = t.blocks.map (Block.mirror φ e)
  ending : ∀ x ∈ t.blocks, x.name = Block.endName → x.start = e₀ ∧ x.finish = e₀ ∧ x.anchor = e₀
  last : ∃ x ∈ t.blocks, x.name = Block.endName
  other : ∀ x ∈ t.blocks, x.name ≠ Block.endName → x.finish < e₀
  taken : t'.taken = t.taken.map fun x => (moveEnd e₀ e x.1, φ x.2)
  live : ∀ x ∈ t.taken, x.2 ∈ S ∧ x.1 ≤ e₀ ∧ ((b.get x.2).action = .stop → x.1 = e₀)

variable {φ : Label → Label} {e₀ e tick : Int} {S : Set Label} {b b' b₁ : Board} {t t' t₁ : TickLine} {l : Label}

theorem moveEnd_of_lt (h : tick < e₀) : moveEnd e₀ e tick = tick := if_neg h.ne

theorem moveEnd_le_iff (he : e₀ ≤ e) {a c : Int} (ha : a ≤ e₀) (hc : c ≤ e₀) :
    moveEnd e₀ e a ≤ moveEnd e₀ e c ↔ a ≤ c := by
  unfold moveEnd
  split_ifs <;> omega

theorem moveEnd_eq_iff (he : e₀ ≤ e) {a c : Int} (ha : a ≤ e₀) (hc : c ≤ e₀) :
    moveEnd e₀ e a = moveEnd e₀ e c ↔ a = c := by
  unfold moveEnd
  split_ifs <;> omega

theorem rank_mirror (i : Instruction) : rank (i.mirror φ e) = rank i := by
  obtain ⟨time, block, address, reachedBy, action⟩ := i
  cases action <;> rfl

theorem yields_mirror {v : Traveller} {o : Label} (hb : b.Mirrored φ e S b') (hv : v.label ∈ S) (ho : o ∈ S) :
    yields b' { v with label := φ v.label } (φ o) = yields b v o := by
  unfold yields
  simp only [hb.cell _ hv, hb.cell _ ho, rank_mirror]

theorem leave_mirror (v : Traveller) {x : Block} (hname : x.name ≠ Block.endName) :
    leave { v with label := φ v.label } (x.mirror φ e) = { leave v x with label := φ (leave v x).label } := by
  rw [Block.mirror_of_ne hname]
  unfold leave
  split <;> rfl

theorem inRange_iff : t.inRange tick = true ↔ 0 ≤ tick ∧ tick < t.length := by
  rw [inRange, Bool.and_eq_true, decide_eq_true_eq, decide_eq_true_eq]

namespace Mirrored

variable (h : t.Mirrored φ e₀ e S b t')

include h

theorem inRange (hr : t.inRange tick = true) : tick ≤ e₀ ∧ t'.inRange (moveEnd e₀ e tick) = true := by
  obtain ⟨h0, hlt⟩ := inRange_iff.1 hr
  have hle := h.le
  rw [h.length] at hlt
  refine ⟨by omega, inRange_iff.2 ?_⟩
  rw [h.length', moveEnd]
  split_ifs <;> omega

theorem at?_eq (htick : tick ≤ e₀) : t'.at? (moveEnd e₀ e tick) = (t.at? tick).map φ := by
  rw [TickLine.at?, TickLine.at?, h.taken, List.find?_map]
  have hfind : t.taken.find? ((fun x : Int × Label => x.1 == moveEnd e₀ e tick) ∘ fun x => (moveEnd e₀ e x.1, φ x.2)) =
      t.taken.find? fun x => x.1 == tick := by
    refine List.find?_congr fun x hx => ?_
    rw [Function.comp_apply, Bool.eq_iff_iff, beq_iff_eq, beq_iff_eq]
    exact moveEnd_eq_iff h.le (h.live x hx).2.1 htick
  rw [hfind, Option.map_map, Option.map_map]
  rfl

theorem put (htick : tick ≤ e₀) (hl : l ∈ S) (hstop : (b.get l).action = .stop → tick = e₀) :
    (t.put tick l).Mirrored φ e₀ e S b (t'.put (moveEnd e₀ e tick) (φ l)) where
  le := h.le
  length := h.length
  length' := h.length'
  blocks := h.blocks
  ending := h.ending
  last := h.last
  other := h.other
  taken := by
    change (moveEnd e₀ e tick, φ l) :: t'.taken.filter _ = ((tick, l) :: t.taken.filter _).map _
    rw [List.map_cons, h.taken, List.filter_map]
    congr 2
    refine List.filter_congr fun x hx => ?_
    have hiff := moveEnd_eq_iff h.le (h.live x hx).2.1 htick
    rw [Function.comp_apply, Bool.eq_iff_iff, bne_iff_ne, bne_iff_ne]
    exact not_congr hiff
  live := by
    refine List.forall_mem_cons.2 ⟨⟨hl, htick, hstop⟩, fun x hx => h.live x (List.mem_of_mem_filter hx)⟩

theorem of_action (hact : ∀ l, (b₁.get l).action = (b.get l).action) : t.Mirrored φ e₀ e S b₁ t' :=
  { h with live := fun x hx => by rw [hact]; exact h.live x hx }

/-! ### Blocks -/

theorem placeMember {name : String} (hl : l ∈ S) (htime : b'.time (φ l) = moveEnd e₀ e (b.time l))
    (hstop : (b.get l).action = .stop → b.time l = e₀) (hp : placeMember name t b l = .ok t₁) :
    ∃ t₁', TickLine.placeMember name t' b' (φ l) = .ok t₁' ∧ t₁.Mirrored φ e₀ e S b t₁' := by
  unfold TickLine.placeMember at hp ⊢
  simp only at hp ⊢
  rw [htime]
  split at hp
  · cases hp
  rename_i hrange
  obtain ⟨hle, hrange'⟩ := h.inRange (by simpa using hrange)
  rw [if_neg (by simp [hrange']), h.at?_eq hle]
  split at hp
  · cases hp
  rename_i hat
  cases hp
  rw [Option.isSome_map, if_neg hat]
  exact ⟨_, rfl, h.put hle hl hstop⟩

omit h in
theorem placeMembers {name : String} {ls : List Label} : ∀ {t t' t₁ : TickLine}, t.Mirrored φ e₀ e S b t' →
    (∀ l ∈ ls, l ∈ S ∧ b'.time (φ l) = moveEnd e₀ e (b.time l) ∧ ((b.get l).action = .stop → b.time l = e₀)) →
    ls.foldlM (fun t l => TickLine.placeMember name t b l) t = .ok t₁ →
    ∃ t₁', (ls.map φ).foldlM (fun t l => TickLine.placeMember name t b' l) t' = .ok t₁' ∧
      t₁.Mirrored φ e₀ e S b t₁' := by
  induction ls with
  | nil =>
    intro t t' t₁ h _ hok
    cases hok
    exact ⟨t', rfl, h⟩
  | cons l ls ih =>
    intro t t' t₁ h hls hok
    obtain ⟨t₂, hstep, hrest⟩ := Except.bind_eq_ok.1 hok
    obtain ⟨hl, htime, hstop⟩ := hls l List.mem_cons_self
    obtain ⟨t₂', hstep', h₂⟩ := h.placeMember hl htime hstop hstep
    obtain ⟨t₁', hrest', h₁⟩ := ih h₂ (fun m hm => hls m (List.mem_cons_of_mem _ hm)) hrest
    exact ⟨t₁', Except.bind_eq_ok.2 ⟨t₂', hstep', hrest'⟩, h₁⟩

omit h in
theorem placeBlocks {xs : List Block} : ∀ {t t' t₁ : TickLine}, t.Mirrored φ e₀ e S b t' →
    (∀ x ∈ xs, ∀ l ∈ x.members, l ∈ S ∧ b'.time (φ l) = moveEnd e₀ e (b.time l) ∧
      ((b.get l).action = .stop → b.time l = e₀)) →
    xs.foldlM (fun t x => x.members.foldlM (fun t l => TickLine.placeMember x.name t b l) t) t = .ok t₁ →
    ∃ t₁', (xs.map (Block.mirror φ e)).foldlM
        (fun t x => x.members.foldlM (fun t l => TickLine.placeMember x.name t b' l) t) t' = .ok t₁' ∧
      t₁.Mirrored φ e₀ e S b t₁' := by
  induction xs with
  | nil =>
    intro t t' t₁ h _ hok
    cases hok
    exact ⟨t', rfl, h⟩
  | cons x xs ih =>
    intro t t' t₁ h hxs hok
    obtain ⟨t₂, hstep, hrest⟩ := Except.bind_eq_ok.1 hok
    obtain ⟨t₂', hstep', h₂⟩ := placeMembers h (hxs x List.mem_cons_self) hstep
    obtain ⟨t₁', hrest', h₁⟩ := ih h₂ (fun y hy => hxs y (List.mem_cons_of_mem _ hy)) hrest
    refine ⟨t₁', Except.bind_eq_ok.2 ⟨t₂', ?_, hrest'⟩, h₁⟩
    simp only [Block.name_mirror, Block.members_mirror]
    exact hstep'

/-! ### Free instructions -/

theorem blockAt?_eq (htick : tick < e₀) : t'.blockAt? tick = (t.blockAt? tick).map (Block.mirror φ e) := by
  rw [TickLine.blockAt?, TickLine.blockAt?, h.blocks, List.find?_map]
  congr 1
  refine List.find?_congr fun x hx => ?_
  rw [Function.comp_apply]
  by_cases hname : x.name = Block.endName
  · obtain ⟨hstart, -, -⟩ := h.ending x hx hname
    have hle := h.le
    rw [Block.mirror, if_pos hname, hstart, decide_eq_false (not_le.2 htick),
      decide_eq_false (show ¬ e ≤ tick by omega), Bool.false_and, Bool.false_and]
  · rw [Block.mirror_of_ne hname]

/-- A block found before the END is not that of the END. -/
theorem ne_endName {x : Block} (htick : tick < e₀) (hx : t.blockAt? tick = some x) : x.name ≠ Block.endName := by
  intro hname
  obtain ⟨hstart, -, -⟩ := h.ending x (List.mem_of_find?_eq_some hx) hname
  have hcovers := List.find?_some hx
  rw [Bool.and_eq_true, decide_eq_true_eq, hstart] at hcovers
  exact absurd hcovers.1 (not_le.2 htick)

/-- Who reaches the tick of the END finds no place. -/
theorem lt_of_settle {origin : Label} {steps : Nat} {v : Traveller} {r : TickLine × Board}
    (hok : (settle origin (steps + 1) v t b).outcome = .ok r) : v.tick < e₀ := by
  unfold settle at hok
  split at hok
  · cases hok
  rename_i hrange
  obtain ⟨hle, -⟩ := h.inRange (by simpa using hrange)
  refine lt_of_le_of_ne hle fun heq => ?_
  obtain ⟨z, hz, hzname⟩ := h.last
  obtain ⟨hstart, hfinish, -⟩ := h.ending z hz hzname
  cases hblock : t.blockAt? v.tick with
  | none =>
    have := List.find?_eq_none.1 hblock z hz
    rw [hstart, hfinish, heq] at this
    simp at this
  | some x =>
    have hx := List.mem_of_find?_eq_some hblock
    have hcovers := List.find?_some hblock
    rw [Bool.and_eq_true, decide_eq_true_eq, decide_eq_true_eq, heq] at hcovers
    have hname : x.name = Block.endName := by
      by_contra hne
      exact absurd (h.other x hx hne) (not_lt.2 hcovers.2)
    obtain ⟨-, hfin, hanchor⟩ := h.ending x hx hname
    simp only [hblock] at hok
    split at hok
    · cases hok
    · obtain ⟨-, -, hok⟩ := Attempt.bind_eq_ok.1 hok
      have hout : t.inRange (leave v x).tick = false := by
        rw [leave, if_pos (by rw [hanchor, heq]), Bool.eq_false_iff, ne_eq, inRange_iff, h.length, hfin]
        simp
      cases steps with
      | zero => cases hok
      | succ steps =>
        rw [TickLine.settle, hout] at hok
        cases hok

/-- An instruction other than the END takes the same tick in both lines. -/
theorem put_setTime (hb : b.Mirrored φ e S b') (htick : tick < e₀) (hl : l ∈ S) (hact : (b.get l).action ≠ .stop) :
    (t.put tick l).Mirrored φ e₀ e S (b.setTime l tick) (t'.put tick (φ l)) ∧
      (b.setTime l tick).Mirrored φ e S (b'.setTime (φ l) tick) := by
  have hput := h.put htick.le hl fun hstop => absurd hstop hact
  rw [moveEnd_of_lt htick] at hput
  exact ⟨hput.of_action (Board.Retimed.setTime b l tick).action_eq,
    hb.modify hl (Instruction.mirror_setTime hact _) (hb.closed _ hl)⟩

omit h in
/-- An instruction finds its tick in both lines, or none in the first. -/
theorem settle {origin : Label} {steps : Nat} : ∀ {steps' : Nat} {v : Traveller} {t t' t₁ : TickLine} {b b' b₁ : Board},
    t.Mirrored φ e₀ e S b t' → b.Mirrored φ e S b' → v.label ∈ S → (b.get v.label).action ≠ .stop → steps ≤ steps' →
    (settle origin steps v t b).outcome = .ok (t₁, b₁) →
    ∃ t₁' b₁', (TickLine.settle (φ origin) steps' { v with label := φ v.label } t' b').outcome = .ok (t₁', b₁') ∧
      t₁.Mirrored φ e₀ e S b₁ t₁' ∧ b₁.Mirrored φ e S b₁' ∧ ∀ l, (b₁.get l).action = (b.get l).action := by
  induction steps with
  | zero =>
    intro steps' v t t' t₁ b b' b₁ _ _ _ _ _ hok
    cases hok
  | succ steps ih =>
    intro steps' v t t' t₁ b b' b₁ h hb hlabel hact hsteps hok
    obtain ⟨n, rfl⟩ : ∃ n, steps' = n + 1 := ⟨steps' - 1, by omega⟩
    have hn : steps ≤ n := Nat.le_of_succ_le_succ hsteps
    have htick := h.lt_of_settle hok
    have hmove : moveEnd e₀ e v.tick = v.tick := moveEnd_of_lt htick
    have hset := (Board.Retimed.setTime b v.label v.tick).action_eq
    obtain ⟨hput, hboard⟩ := h.put_setTime hb htick hlabel hact
    unfold TickLine.settle at hok
    rw [TickLine.settle]
    split at hok
    · cases hok
    rename_i hrange
    have hrange' := (h.inRange (by simpa using hrange)).2
    rw [hmove] at hrange'
    rw [if_neg (by simp [hrange']), h.blockAt?_eq htick]
    cases hblock : t.blockAt? v.tick with
    | some x =>
      have hname := h.ne_endName htick hblock
      simp only [hblock, Option.map_some] at hok ⊢
      split at hok
      · cases hok
      · rename_i hleaving
        obtain ⟨-, -, hok⟩ := Attempt.bind_eq_ok.1 hok
        obtain ⟨t₁', b₁', hok', h₁⟩ := ih h hb (by rwa [label_leave]) (by rwa [label_leave]) hn hok
        rw [if_neg hleaving, leave_mirror v hname]
        exact ⟨t₁', b₁', Attempt.bind_eq_ok.2 ⟨_, rfl, hok'⟩, h₁⟩
    | none =>
      have hat := h.at?_eq htick.le
      rw [hmove] at hat
      simp only [hblock, Option.map_none, hat] at hok ⊢
      cases hocc : t.at? v.tick with
      | none =>
        simp only [hocc, Option.map_none] at hok ⊢
        cases hok
        exact ⟨_, _, rfl, hput, hboard, hset⟩
      | some occupant =>
        obtain ⟨hmem, -, hstop⟩ := h.live _ (mem_of_at? hocc)
        have hacto : (b.get occupant).action ≠ .stop := fun hs => absurd (hstop hs) htick.ne
        simp only [hocc, Option.map_some, yields_mirror hb hlabel hmem] at hok ⊢
        split at hok
        · rename_i hy
          rw [if_pos hy]
          exact ih (v := { v with tick := v.tick + v.direction }) h hb hlabel hact hn hok
        · rename_i hy
          rw [if_neg hy]
          obtain ⟨t₁', b₁', hok', h₁, hb₁, hact₁⟩ := ih hput hboard hmem (by rwa [hset]) hn hok
          exact ⟨t₁', b₁', hok', h₁, hb₁, fun l => (hact₁ l).trans (hset l)⟩

omit h in
theorem foldlM_placeFree {ls : List Label} : ∀ {t t' t₁ : TickLine} {b b' b₁ : Board}, t.Mirrored φ e₀ e S b t' →
    b.Mirrored φ e S b' → (∀ l ∈ ls, l ∈ S ∧ (b.get l).action ≠ .stop) →
    (ls.foldlM placeFree (t, b)).outcome = .ok (t₁, b₁) →
    ∃ t₁' b₁', ((ls.map φ).foldlM placeFree (t', b')).outcome = .ok (t₁', b₁') ∧ t₁.Mirrored φ e₀ e S b₁ t₁' ∧
      b₁.Mirrored φ e S b₁' := by
  induction ls with
  | nil =>
    intro t t' t₁ b b' b₁ h hb _ hok
    cases hok
    exact ⟨t', b', rfl, h, hb⟩
  | cons l ls ih =>
    intro t t' t₁ b b' b₁ h hb hls hok
    obtain ⟨⟨t₂, b₂⟩, hstep, hrest⟩ := Attempt.foldlM_cons_eq_ok.1 hok
    obtain ⟨hl, hact⟩ := hls l List.mem_cons_self
    have hlimit : t.stepLimit ≤ t'.stepLimit := by
      have hle := h.le
      rw [stepLimit, stepLimit, h.length, h.length']
      omega
    obtain ⟨t₂', b₂', hstep', h₂, hb₂, hact₂⟩ := settle h hb hl hact hlimit hstep
    have hls₂ : ∀ m ∈ ls, m ∈ S ∧ (b₂.get m).action ≠ .stop := fun m hm => by
      rw [hact₂]
      exact hls m (List.mem_cons_of_mem _ hm)
    obtain ⟨t₁', b₁', hrest', h₁⟩ := ih h₂ hb₂ hls₂ hrest
    refine ⟨t₁', b₁', Attempt.foldlM_cons_eq_ok.2 ⟨(t₂', b₂'), ?_, hrest'⟩, h₁⟩
    rw [placeFree, Block.time_of_ne_stop hb hl hact]
    exact hstep'

theorem labels_eq : t'.labels = t.labels.map φ := by
  unfold TickLine.labels
  have hsort : Sort.sortBy (fun a c : Int × Label => decide (a.1 ≤ c.1))
      (t.taken.map fun x => (moveEnd e₀ e x.1, φ x.2)) =
      (Sort.sortBy (fun a c : Int × Label => decide (a.1 ≤ c.1)) t.taken).map fun x => (moveEnd e₀ e x.1, φ x.2) :=
    Sort.sortBy_map fun x hx y hy =>
      decide_eq_decide.2 (moveEnd_le_iff h.le (h.live x hx).2.1 (h.live y hy).2.1)
  rw [h.taken, hsort, List.map_map, List.map_map]
  rfl

end Mirrored

end TickLine

/-! ## Placement -/

namespace Board

variable {φ : Label → Label} {e₀ e : Int} {S : Set Label} {b b' b₁ : Board} {z : Label} {ls ls₁ : List Label}

/-- Separated blocks: the members of all but the final one end before the END. -/
theorem Closes.separated [Collation] (hc : b.Closes z e₀ ls) (hvalid : ∀ l ∈ ls, l < b.size) (hnodup : ls.Nodup)
    (hls : ∀ l ∈ ls, l ∈ S) {ys : List Block} (hsep : (Block.separate b (Block.collect b ls)).outcome = .ok (ys, b₁)) :
    b.Retimed b₁ ∧ (∀ y ∈ ys, y.Regular S b₁ z e₀) ∧ (∃ y ∈ ys, y.name = Block.endName) ∧ b₁.time z = e₀ ∧
      ∀ y ∈ ys, y.name ≠ Block.endName → y.finish < e₀ ∧ ∀ l ∈ y.members, b₁.time l < e₀ := by
  obtain ⟨shift, hs⟩ := Block.shifted_of_separate (Block.apart_collect hvalid hnodup) hsep
  have hreg : ∀ x ∈ Block.collect b ls, x.Regular S b z e₀ := fun x hx => Block.regular_of_mem_collect hc hnodup hls hx
  have happart := Block.apart_of_separate (fun x hx => Block.start_le_finish hx) hsep
  have hlast : ys.Pairwise fun x _ => x.name ≠ Block.endName := by
    rw [hs.blocks]
    exact List.pairwise_map.2 (Block.pairwise_collect hc hnodup)
  have hzero : ∀ x : Block, x.name = Block.endName → shift x.name = 0 := fun x hx => by rw [hx, hs.ending]
  obtain ⟨w, hw, hwname, hzw⟩ := Block.exists_of_block hc.mem hc.block
  have hwys : w ∈ ys := by
    rw [hs.blocks]
    exact List.mem_map.2 ⟨w, hw, by rw [hzero w hwname, Block.moveBy_zero]⟩
  have hwend := (hreg w hw).ending hwname
  have hfinish : ∀ y ∈ ys, y.name ≠ Block.endName → y.finish < e₀ := by
    intro y hy hname
    rcases eq_or_of_pairwise (happart.and hlast) hy hwys with heq | ⟨hlt, -⟩ | ⟨-, hne⟩
    · exact absurd hwname (heq ▸ hname)
    · rwa [hwend] at hlt
    · exact absurd hwname hne
  refine ⟨hs.retimed, fun y hy => ?_, ⟨w, hwys, hwname⟩, ?_, fun y hy hname => ⟨hfinish y hy hname, fun l hl => ?_⟩⟩
  · rw [hs.blocks] at hy
    obtain ⟨x, hx, rfl⟩ := List.mem_map.1 hy
    exact (hreg x hx).moveBy (hzero x) hs.retimed
  · rw [hs.time w hw z hzw, hzero w hwname, hc.time, add_zero]
  · have hlt := hfinish y hy hname
    rw [hs.blocks] at hy
    obtain ⟨x, hx, rfl⟩ := List.mem_map.1 hy
    have hbound := ((Block.spans_of_mem_collect hx).bounds l hl).2
    rw [hs.time x hx l hl]
    have : (x.moveBy (shift x.name)).finish = x.finish + shift x.name := rfl
    omega

section Retimed

variable (hc : b.Closes z e₀ ls) (hr : b.Retimed b₁) (hb : b₁.Mirrored φ e S b') (hls : ∀ l ∈ ls, l ∈ S)

include hc hr hb hls

/-- Members of regular blocks have the same tick under other labels, but for the END. -/
theorem Closes.time_member {y : Block} (hreg : y.Regular S b₁ z e₀) (hz : b₁.time z = e₀)
    (hother : y.name ≠ Block.endName → ∀ l ∈ y.members, b₁.time l < e₀) {l : Label} (hl : l ∈ y.members) :
    l ∈ S ∧ b'.time (φ l) = TickLine.moveEnd e₀ e (b₁.time l) ∧ ((b₁.get l).action = .stop → b₁.time l = e₀) := by
  by_cases hname : y.name = Block.endName
  · rw [hreg.ending hname] at hl
    rw [List.mem_singleton.1 hl, hz, TickLine.moveEnd, if_pos rfl, Board.time, hb.cell z (hls z hc.mem)]
    refine ⟨hls z hc.mem, if_pos ?_, fun _ => rfl⟩
    rw [hr.action_eq, hc.stop]
  · obtain ⟨hlS, hact⟩ := hreg.member hname l hl
    rw [TickLine.moveEnd_of_lt (hother hname l hl)]
    exact ⟨hlS, Block.time_of_ne_stop hb hlS hact, fun hstop => absurd hstop hact⟩

omit hb in
/-- The END is not among the instructions that are fitted in. -/
theorem Closes.of_mem_queue {l : Label} (hl : l ∈ b₁.queue ls) : l ∈ S ∧ (b₁.get l).action ≠ .stop := by
  obtain ⟨hl, hnone⟩ := mem_queue.1 hl
  rw [hr.block_eq] at hnone
  rw [hr.action_eq]
  refine ⟨hls l hl, (hc.other l hl fun heq => ?_).1⟩
  rw [heq, hc.block] at hnone
  cases hnone

theorem Closes.queue_mirror : b'.queue (ls.map φ) = (b₁.queue ls).map φ := by
  have hfilter : (ls.map φ).filter (fun l => (b'.get l).block.isNone) =
      (ls.filter fun l => (b₁.get l).block.isNone).map φ :=
    Draft.Mirrored.filter_map_eq fun l hl => by rw [hb.cell l (hls l hl), Instruction.block_mirror]
  unfold queue
  rw [hfilter]
  refine Sort.sortBy_map fun x hx y hy => ?_
  obtain ⟨hx, hxact⟩ := hc.of_mem_queue hr hls (Sort.mem_sortBy.2 hx)
  obtain ⟨hy, hyact⟩ := hc.of_mem_queue hr hls (Sort.mem_sortBy.2 hy)
  rw [hb.cell x hx, hb.cell y hy, Instruction.before, Instruction.before, Instruction.time_mirror hxact,
    Instruction.time_mirror hyact, Instruction.opcode_mirror, Instruction.opcode_mirror]

end Retimed

/-- What can be placed before an END can be placed in the same way before a later one. -/
theorem Mirrored.place [Collation] (h : b.Mirrored φ e S b') (hc : b.Closes z e₀ ls) (he : e₀ ≤ e)
    (hmax : e < TickLine.maxLength) (hvalid : ∀ l ∈ ls, l < b.size) (hnodup : ls.Nodup) (hls : ∀ l ∈ ls, l ∈ S)
    (hok : (b.place (e₀ + 1) ls).outcome = .ok (ls₁, b₁)) :
    ∃ b₁', (b'.place (e + 1) (ls.map φ)).outcome = .ok (ls₁.map φ, b₁') ∧ b₁.Mirrored φ e S b₁' := by
  obtain ⟨ys, b₂, t, t₁, hsep, hlow, -, hblocks, hfree, rfl⟩ := place_eq_ok.1 hok
  obtain ⟨hretimed, hreg, hend, hz, hothers⟩ := hc.separated hvalid hnodup hls hsep
  obtain ⟨b₂', hsep', hb₂⟩ := Block.separate_mirror h he
    (fun x hx => Block.regular_of_mem_collect hc hnodup hls hx) (Block.pairwise_collect hc hnodup) hsep
  have hline : TickLine.Mirrored φ e₀ e S b₂ ⟨e₀ + 1, ys, []⟩ ⟨e + 1, ys.map (Block.mirror φ e), []⟩ := {
    le := he, length := rfl, length' := rfl, blocks := rfl
    ending := fun y hy hname => by
      rw [(hreg y hy).ending hname]
      exact ⟨rfl, rfl, rfl⟩
    last := hend
    other := fun y hy hname => (hothers y hy hname).1
    taken := rfl
    live := by simp }
  obtain ⟨t', hblocks', ht⟩ := hline.placeBlocks
    (fun y hy l hl => hc.time_member hretimed hb₂ hls (hreg y hy) hz (fun hname => (hothers y hy hname).2) hl) hblocks
  obtain ⟨t₁', b₁', hfree', ht₁, hb₁⟩ := ht.foldlM_placeFree hb₂ (fun l hl => hc.of_mem_queue hretimed hls hl) hfree
  refine ⟨b₁', place_eq_ok.2 ⟨ys.map (Block.mirror φ e), b₂', t', t₁', ?_, by omega, by omega, hblocks', ?_, ?_⟩, hb₁⟩
  · rw [Block.collect_mirror hc hnodup hls h he]
    exact hsep'
  · rw [hc.queue_mirror hretimed hb₂ hls]
    exact hfree'
  · exact ht₁.labels_eq.symm

end Board

/-- A draft is placed in the same way under other labels and before a later END. -/
theorem Draft.Mirrored.place [Collation] {φ : Label → Label} {e₀ e : Int} {S : Set Label} {d d' d₁ : Draft} {z : Label}
    (h : d.Mirrored φ e S d') (hd : d.Linked) (hc : d.board.Closes z e₀ d.list) (he : e₀ ≤ e)
    (hmax : e < TickLine.maxLength) (hok : (d.place (e₀ + 1)).outcome = .ok d₁) :
    ∃ d₁', (d'.place (e + 1)).outcome = .ok d₁' ∧ d₁.Mirrored φ e S d₁' := by
  obtain ⟨⟨ls, b₁⟩, hplace, hd₁⟩ := Attempt.bind_eq_ok.1 hok
  cases hd₁
  obtain ⟨b₁', hplace', hb₁⟩ := h.board.place hc he hmax hd.valid hd.nodup h.live hplace
  have hperm := (Board.placed_of_place hd.valid hd.nodup hplace).1.perm
  refine ⟨_, Attempt.bind_eq_ok.2 ⟨(ls.map φ, b₁'), ?_, rfl⟩, hb₁, rfl, fun l hl => h.live l (hperm.mem_iff.1 hl)⟩
  rw [h.list]
  exact hplace'

end PulseSequencer
