import PulseSequencer.Proofs.Blocks
import PulseSequencer.Schedule.TickLine

/-!
# Placed instructions

Placement only changes ticks. Every instruction gets a tick of its own on the line, and a block moves as a whole.

* `TickLine.Laid` : a line on which every instruction stands at its own tick;
* `TickLine.Step`, `TickLine.settle_induction` : the steps of an instruction on its way, and what follows from them;
* `TickLine.laid_of_settle` : an instruction that settles keeps it so, and no block is touched;
* `Board.Placed`, `Board.placed_of_place` : what placement gives.
-/

namespace PulseSequencer

namespace TickLine

/-- The instructions on the line stand at their ticks, one at each, those of blocks inside a block and the others
outside all blocks. -/
structure Laid (t : TickLine) (b : Board) : Prop where
  nodup : (t.taken.map Prod.fst).Nodup
  time : ∀ e ∈ t.taken, b.time e.2 = e.1
  range : ∀ e ∈ t.taken, t.inRange e.1 = true
  valid : ∀ e ∈ t.taken, e.2 < b.size
  blocked : ∀ e ∈ t.taken, (b.get e.2).block ≠ none → (t.blockAt? e.1).isSome = true
  free : ∀ e ∈ t.taken, (b.get e.2).block = none → t.blockAt? e.1 = none

variable {t t' : TickLine} {b b' : Board} {tick : Int} {l : Label}

theorem at?_eq_none : t.at? tick = none ↔ ∀ e ∈ t.taken, e.1 ≠ tick := by
  simp only [at?, Option.map_eq_none_iff, List.find?_eq_none, beq_iff_eq, ne_eq]

theorem mem_of_at? {o : Label} (h : t.at? tick = some o) : (tick, o) ∈ t.taken := by
  obtain ⟨e, he, rfl⟩ := Option.map_eq_some_iff.1 h
  have hmem := List.mem_of_find?_eq_some he
  have htick := List.find?_some he
  rw [beq_iff_eq] at htick
  rwa [← htick]

theorem taken_put_of_none (h : t.at? tick = none) : (t.put tick l).taken = (tick, l) :: t.taken := by
  rw [put, List.filter_eq_self.2]
  exact fun e he => bne_iff_ne.2 (at?_eq_none.1 h e he)

/-- Another instruction takes a tick, the occupant leaves the line. -/
theorem perm_put_of_some {o : Label} (hnodup : (t.taken.map Prod.fst).Nodup) (h : t.at? tick = some o) :
    t.taken.Perm ((tick, o) :: t.taken.filter fun e => e.1 != tick) := by
  have hmem := mem_of_at? h
  refine (List.perm_cons_erase hmem).trans (.cons _ (.of_eq ?_))
  rw [hnodup.of_map.erase_eq_filter]
  refine List.filter_congr fun e he => ?_
  by_cases heq : e.1 = tick
  · have : e = (tick, o) := List.inj_on_of_nodup_map hnodup he hmem heq
    simp [this]
  · have : e ≠ (tick, o) := fun h => heq (by rw [h])
    rw [bne_iff_ne.2 heq, bne_iff_ne.2 this]

theorem Laid.nodup_labels (h : t.Laid b) : (t.taken.map Prod.snd).Nodup := by
  refine List.pairwise_map.2 ((List.pairwise_map.1 h.nodup).imp_of_mem fun {e e'} he he' hne heq => hne ?_)
  rw [← h.time e he, ← h.time e' he', heq]

/-! ## Blocks -/

theorem laid_of_placeMember {name : String} (h : t.Laid b) (hl : l < b.size) (hmember : (b.get l).block ≠ none)
    (hblock : (t.blockAt? (b.time l)).isSome = true) (hp : placeMember name t b l = .ok t') :
    t'.Laid b ∧ t' = { t with taken := (b.time l, l) :: t.taken } := by
  unfold placeMember at hp
  simp only at hp
  split at hp
  · cases hp
  · rename_i hrange
    split at hp
    · cases hp
    · rename_i hat
      cases hp
      have hnone : t.at? (b.time l) = none := by simpa using hat
      have heq : t.put (b.time l) l = { t with taken := (b.time l, l) :: t.taken } := by
        rw [← taken_put_of_none hnone, put]
      rw [heq]
      refine ⟨⟨?_, ?_, ?_, ?_, ?_, ?_⟩, rfl⟩
      · rw [List.map_cons, List.nodup_cons]
        refine ⟨fun hmem => ?_, h.nodup⟩
        obtain ⟨e, he, heq⟩ := List.mem_map.1 hmem
        exact at?_eq_none.1 hnone e he heq
      · exact List.forall_mem_cons.2 ⟨rfl, h.time⟩
      · exact List.forall_mem_cons.2 ⟨by simpa [inRange] using hrange, h.range⟩
      · exact List.forall_mem_cons.2 ⟨hl, h.valid⟩
      · exact List.forall_mem_cons.2 ⟨fun _ => hblock, h.blocked⟩
      · exact List.forall_mem_cons.2 ⟨fun hfree => absurd hfree hmember, h.free⟩

/-- The line `t'` has the further labels `ls` on it. -/
structure Gains (t t' : TickLine) (ls : List Label) : Prop where
  length : t'.length = t.length
  blocks : t'.blocks = t.blocks
  labels : (t'.taken.map Prod.snd).Perm (ls ++ t.taken.map Prod.snd)

theorem Gains.refl (t : TickLine) : t.Gains t [] := ⟨rfl, rfl, .refl _⟩

theorem Gains.trans {t₁ t₂ t₃ : TickLine} {ls ls' : List Label} (h : t₁.Gains t₂ ls) (h' : t₂.Gains t₃ ls') :
    t₁.Gains t₃ (ls ++ ls') := by
  refine ⟨h'.length.trans h.length, h'.blocks.trans h.blocks, h'.labels.trans ((h.labels.append_left ls').trans ?_)⟩
  rw [← List.append_assoc]
  exact List.perm_append_comm.append_right _

theorem laid_of_placeMembers {name : String} {b : Board} {ls : List Label} : ∀ {t t' : TickLine}, t.Laid b →
    (∀ l ∈ ls, l < b.size ∧ (b.get l).block ≠ none ∧ (t.blockAt? (b.time l)).isSome = true) →
    ls.foldlM (fun t l => placeMember name t b l) t = .ok t' → t'.Laid b ∧ t.Gains t' ls := by
  induction ls with
  | nil =>
    intro t t' h _ hp
    cases hp
    exact ⟨h, .refl t⟩
  | cons l ls ih =>
    intro t t' h hls hp
    obtain ⟨t₁, h1, h2⟩ := Except.foldlM_cons_eq_ok.1 hp
    obtain ⟨hl, hmember, hblock⟩ := hls l List.mem_cons_self
    obtain ⟨hlaid, rfl⟩ := laid_of_placeMember h hl hmember hblock h1
    obtain ⟨hlaid', hgain⟩ := ih hlaid (fun m hm => hls m (List.mem_cons_of_mem _ hm)) h2
    have hone : t.Gains { t with taken := (b.time l, l) :: t.taken } [l] := ⟨rfl, rfl, .refl _⟩
    exact ⟨hlaid', hone.trans hgain⟩

theorem laid_of_placeBlocks {b : Board} {xs : List Block} : ∀ {t t' : TickLine}, t.Laid b → (∀ x ∈ xs, x ∈ t.blocks) →
    (∀ x ∈ xs, ∀ l ∈ x.members, l < b.size ∧ (b.get l).block ≠ none ∧ x.start ≤ b.time l ∧ b.time l ≤ x.finish) →
    xs.foldlM (fun t x => x.members.foldlM (fun t l => placeMember x.name t b l) t) t = .ok t' →
    t'.Laid b ∧ t.Gains t' (xs.flatMap Block.members) := by
  induction xs with
  | nil =>
    intro t t' h _ _ hp
    cases hp
    exact ⟨h, .refl t⟩
  | cons x xs ih =>
    intro t t' h hmem hxs hp
    obtain ⟨t₁, h1, h2⟩ := Except.foldlM_cons_eq_ok.1 hp
    obtain ⟨hlaid, hgain⟩ := laid_of_placeMembers h (fun l hl => by
      obtain ⟨hlt, hmember, hs, hf⟩ := hxs x List.mem_cons_self l hl
      refine ⟨hlt, hmember, List.find?_isSome.2 ⟨x, hmem x List.mem_cons_self, ?_⟩⟩
      simp [hs, hf]) h1
    obtain ⟨hlaid', hgain'⟩ := ih hlaid
      (fun y hy => by rw [hgain.blocks]; exact hmem y (List.mem_cons_of_mem _ hy))
      (fun y hy => hxs y (List.mem_cons_of_mem _ hy)) h2
    exact ⟨hlaid', hgain.trans hgain'⟩

/-! ## Free-standing instructions -/

/-- A free label off the line takes a tick outside all blocks. -/
theorem Laid.put (h : t.Laid b) (hl : l < b.size) (hfree : (b.get l).block = none) (hoff : l ∉ t.taken.map Prod.snd)
    (hrange : t.inRange tick = true) (hout : t.blockAt? tick = none) : (t.put tick l).Laid (b.setTime l tick) := by
  have hret := Board.Retimed.setTime b l tick
  have hsub : ∀ e ∈ t.taken.filter (fun e => e.1 != tick), e ∈ t.taken := fun e he => (List.mem_filter.1 he).1
  refine ⟨?_, ?_, ?_, ?_, ?_, ?_⟩
  · rw [TickLine.put, List.map_cons, List.nodup_cons]
    refine ⟨fun hmem => ?_, h.nodup.sublist (List.filter_sublist.map _)⟩
    obtain ⟨e, he, heq⟩ := List.mem_map.1 hmem
    exact bne_iff_ne.1 (List.mem_filter.1 he).2 heq
  · refine List.forall_mem_cons.2 ⟨?_, fun e he => ?_⟩
    · rw [Board.time, Board.setTime, Board.get_modify_self _ hl]
    · rw [Board.time, Board.setTime, Board.get_modify_of_ne]
      · exact h.time e (hsub e he)
      · exact fun heq => hoff (List.mem_map.2 ⟨e, hsub e he, heq⟩)
  · exact List.forall_mem_cons.2 ⟨hrange, fun e he => h.range e (hsub e he)⟩
  · refine List.forall_mem_cons.2 ⟨?_, fun e he => ?_⟩
    · rw [hret.size_eq]
      exact hl
    · rw [hret.size_eq]
      exact h.valid e (hsub e he)
  · refine List.forall_mem_cons.2 ⟨fun hb => ?_, fun e he hb => ?_⟩
    · rw [hret.block_eq, hfree] at hb
      exact absurd rfl hb
    · rw [hret.block_eq] at hb
      exact h.blocked e (hsub e he) hb
  · refine List.forall_mem_cons.2 ⟨fun _ => hout, fun e he hb => ?_⟩
    rw [hret.block_eq] at hb
    exact h.free e (hsub e he) hb

/-- Only instructions without a block have changed their tick. -/
structure FreeRetimed (b b' : Board) : Prop where
  retimed : b.Retimed b'
  blocked : ∀ l, (b.get l).block ≠ none → b'.time l = b.time l

theorem FreeRetimed.refl (b : Board) : FreeRetimed b b := ⟨.refl b, fun _ _ => rfl⟩

theorem FreeRetimed.trans {b b' b'' : Board} (h : FreeRetimed b b') (h' : FreeRetimed b' b'') : FreeRetimed b b'' :=
  ⟨h.retimed.trans h'.retimed, fun l hl =>
    (h'.blocked l (by rwa [h.retimed.block_eq])).trans (h.blocked l hl)⟩

theorem FreeRetimed.setTime {b : Board} {l : Label} (hfree : (b.get l).block = none) (tick : Int) :
    FreeRetimed b (b.setTime l tick) := by
  refine ⟨.setTime b l tick, fun m hm => ?_⟩
  have hne : m ≠ l := fun h => hm (h ▸ hfree)
  rw [Board.time, Board.setTime, Board.get_modify_of_ne _ hne]
  rfl

/-- One step of an instruction on its way. Another one may have to go on in its place. -/
inductive Step (v : Traveller) (t : TickLine) (b : Board) : Traveller → TickLine → Board → Prop
  /-- Out of a block. -/
  | leave {x : Block} (hblock : t.blockAt? v.tick = some x) (hfirst : v.leaving = false) : Step v t b (leave v x) t b
  /-- Past an instruction that stays. -/
  | pass {o : Label} (hblock : t.blockAt? v.tick = none) (hat : t.at? v.tick = some o) (hyields : yields b v o = true) :
    Step v t b { v with tick := v.tick + v.direction } t b
  /-- Into the place of one that does not. -/
  | exchange {o : Label} (hrange : t.inRange v.tick = true) (hblock : t.blockAt? v.tick = none)
      (hat : t.at? v.tick = some o) (hyields : yields b v o = false) :
    Step v t b { v with label := o, tick := v.tick + v.direction } (t.put v.tick v.label) (b.setTime v.label v.tick)

/-- The tick is on the line and free. -/
structure Vacant (t : TickLine) (tick : Int) : Prop where
  range : t.inRange tick = true
  block : t.blockAt? tick = none
  at? : t.at? tick = none

/-- An instruction that settles finds its tick free, or makes a step and settles then. -/
theorem settle_cases {origin : Label} {steps : Nat} {v : Traveller} {r : TickLine × Board}
    (h : (settle origin (steps + 1) v t b).outcome = .ok r) :
    (t.Vacant v.tick ∧ r = (t.put v.tick v.label, b.setTime v.label v.tick)) ∨
      ∃ v₁ t₁ b₁, Step v t b v₁ t₁ b₁ ∧ (settle origin steps v₁ t₁ b₁).outcome = .ok r := by
  unfold settle at h
  split at h
  · cases h
  · rename_i hrange
    replace hrange : t.inRange v.tick = true := by simpa using hrange
    split at h
    · rename_i x hblock
      split at h
      · cases h
      · rename_i hleaving
        obtain ⟨-, -, h⟩ := Attempt.bind_eq_ok.1 h
        exact .inr ⟨_, _, _, .leave hblock (by simpa using hleaving), h⟩
    · rename_i hblock
      split at h
      · rename_i hat
        cases h
        exact .inl ⟨⟨hrange, hblock, hat⟩, rfl⟩
      · rename_i o hat
        split at h
        · rename_i hyields
          exact .inr ⟨_, _, _, .pass hblock hat hyields, h⟩
        · rename_i hyields
          exact .inr ⟨_, _, _, .exchange hrange hblock hat (by simpa using hyields), h⟩

/-- An instruction on its way has no block and is not on the line. -/
structure Rides (v : Traveller) (t : TickLine) (b : Board) : Prop where
  laid : t.Laid b
  valid : v.label < b.size
  free : (b.get v.label).block = none
  off : v.label ∉ t.taken.map Prod.snd

/-- What stands outside all blocks has no block. -/
theorem Laid.free_of_at? (h : t.Laid b) {o : Label} (hblock : t.blockAt? tick = none) (hat : t.at? tick = some o) :
    (b.get o).block = none := by
  by_contra hne
  have hin := h.blocked _ (mem_of_at? hat) hne
  rw [hblock] at hin
  cases hin

theorem label_leave (v : Traveller) (x : Block) : (leave v x).label = v.label := by
  unfold leave
  split <;> rfl

section Step

variable {v v₁ : Traveller} {t₁ : TickLine} {b₁ : Board} (h : Rides v t b)

include h

/-- A step keeps the instructions together that are on the line or on their way to it. -/
theorem Rides.perm_step (hs : Step v t b v₁ t₁ b₁) :
    (v₁.label :: t₁.taken.map Prod.snd).Perm (v.label :: t.taken.map Prod.snd) := by
  cases hs with
  | leave => rw [label_leave]
  | pass => exact .refl _
  | exchange hrange hblock hat =>
    have hperm := (perm_put_of_some h.laid.nodup hat).map Prod.snd
    exact (List.Perm.swap v.label _ _).trans (hperm.symm.cons v.label)

theorem Rides.retimed_step (hs : Step v t b v₁ t₁ b₁) : FreeRetimed b b₁ := by
  cases hs with
  | leave => exact .refl b
  | pass => exact .refl b
  | exchange => exact .setTime h.free v.tick

theorem Rides.step (hs : Step v t b v₁ t₁ b₁) : Rides v₁ t₁ b₁ := by
  have hperm := h.perm_step hs
  have hret := h.retimed_step hs
  have hoff : v₁.label ∉ t₁.taken.map Prod.snd :=
    (List.nodup_cons.1 (hperm.nodup_iff.2 (List.nodup_cons.2 ⟨h.off, h.laid.nodup_labels⟩))).1
  cases hs with
  | leave =>
    rw [label_leave] at hoff
    exact ⟨h.laid, by rw [label_leave]; exact h.valid, by rw [label_leave]; exact h.free,
      by rw [label_leave]; exact hoff⟩
  | pass => exact ⟨h.laid, h.valid, h.free, hoff⟩
  | exchange hrange hblock hat =>
    refine ⟨h.laid.put h.valid h.free h.off hrange hblock, ?_, ?_, hoff⟩
    · rw [hret.retimed.size_eq]
      exact h.laid.valid _ (mem_of_at? hat)
    · rw [hret.retimed.block_eq]
      exact h.laid.free_of_at? hblock hat

end Step

/-- What holds of an instruction with a free tick and is passed on from the end of a step to its start holds of every
instruction that settles. -/
theorem settle_induction {r : TickLine × Board} {motive : Traveller → TickLine → Board → Prop}
    (hlast : ∀ {v t b}, Rides v t b → t.Vacant v.tick → r = (t.put v.tick v.label, b.setTime v.label v.tick) →
      motive v t b)
    (hstep : ∀ {v t b v₁ t₁ b₁}, Rides v t b → Step v t b v₁ t₁ b₁ → motive v₁ t₁ b₁ → motive v t b)
    {origin : Label} {steps : Nat} : ∀ {v : Traveller} {t : TickLine} {b : Board}, Rides v t b →
    (settle origin steps v t b).outcome = .ok r → motive v t b := by
  induction steps with
  | zero =>
    intro v t b _ h
    cases h
  | succ steps ih =>
    intro v t b hrides h
    rcases settle_cases h with ⟨hvacant, hr⟩ | ⟨v₁, t₁, b₁, hs, h⟩
    · exact hlast hrides hvacant hr
    · exact hstep hrides hs (ih (hrides.step hs) h)

theorem laid_of_settle {origin : Label} {steps : Nat} {v : Traveller} (hlaid : t.Laid b) (hl : v.label < b.size)
    (hfree : (b.get v.label).block = none) (hoff : v.label ∉ t.taken.map Prod.snd)
    (h : (settle origin steps v t b).outcome = .ok (t', b')) :
    t'.Laid b' ∧ t.Gains t' [v.label] ∧ FreeRetimed b b' := by
  refine settle_induction (motive := fun v t b => t'.Laid b' ∧ t.Gains t' [v.label] ∧ FreeRetimed b b') ?_ ?_
    ⟨hlaid, hl, hfree, hoff⟩ h
  · intro v t b hv hvacant hr
    cases hr
    refine ⟨hv.laid.put hv.valid hv.free hv.off hvacant.range hvacant.block, ⟨rfl, rfl, ?_⟩, .setTime hv.free v.tick⟩
    rw [taken_put_of_none hvacant.at?]
    exact .refl _
  · rintro v t b v₁ t₁ b₁ hv hs ⟨hlaid', hgain, hret⟩
    have hsame : t₁.length = t.length ∧ t₁.blocks = t.blocks := by cases hs <;> exact ⟨rfl, rfl⟩
    refine ⟨hlaid', ⟨hgain.length.trans hsame.1, hgain.blocks.trans hsame.2, hgain.labels.trans (hv.perm_step hs)⟩, ?_⟩
    exact (hv.retimed_step hs).trans hret

theorem laid_of_placeFree {ls : List Label} : ∀ {t t' : TickLine} {b b' : Board}, t.Laid b →
    (∀ l ∈ ls, l < b.size ∧ (b.get l).block = none ∧ l ∉ t.taken.map Prod.snd) → ls.Nodup →
    (ls.foldlM placeFree (t, b)).outcome = .ok (t', b') →
    t'.Laid b' ∧ t.Gains t' ls ∧ FreeRetimed b b' := by
  induction ls with
  | nil =>
    intro t t' b b' hlaid _ _ h
    cases h
    exact ⟨hlaid, .refl t, .refl b⟩
  | cons l ls ih =>
    intro t t' b b' hlaid hls hnodup h
    obtain ⟨⟨t₁, b₁⟩, h1, h2⟩ := Attempt.foldlM_cons_eq_ok.1 h
    obtain ⟨hl, hfree, hoff⟩ := hls l List.mem_cons_self
    obtain ⟨hlaid₁, hgain₁, hret₁⟩ := laid_of_settle hlaid hl hfree hoff h1
    obtain ⟨hnotMem, hnodup⟩ := List.nodup_cons.1 hnodup
    obtain ⟨hlaid', hgain', hret'⟩ := ih hlaid₁ (fun m hm => by
      obtain ⟨hm1, hm2, hm3⟩ := hls m (List.mem_cons_of_mem _ hm)
      refine ⟨by rw [hret₁.retimed.size_eq]; exact hm1, by rw [hret₁.retimed.block_eq]; exact hm2, ?_⟩
      rw [hgain₁.labels.mem_iff, List.mem_append, List.mem_singleton, not_or]
      exact ⟨fun heq : m = l => hnotMem (heq ▸ hm), hm3⟩) hnodup h2
    exact ⟨hlaid', hgain₁.trans hgain', hret₁.trans hret'⟩

/-- Instructions with free ticks of their own stay at them. -/
theorem foldlM_placeFree_ok {b : Board} {ls : List Label} : ∀ {t : TickLine},
    (∀ l ∈ ls, t.inRange (b.time l) = true ∧ t.blockAt? (b.time l) = none ∧ ∀ e ∈ t.taken, e.1 ≠ b.time l) →
    (ls.Pairwise fun x y => b.time x ≠ b.time y) → ∃ t', (ls.foldlM placeFree (t, b)).outcome = .ok (t', b) := by
  induction ls with
  | nil => exact fun {t} _ _ => ⟨t, rfl⟩
  | cons l ls ih =>
    intro t hls hne
    obtain ⟨hrange, hblock, htaken⟩ := hls l List.mem_cons_self
    obtain ⟨hl, hne⟩ := List.pairwise_cons.1 hne
    have hput := taken_put_of_none (l := l) (at?_eq_none.2 htaken)
    have hplace : (placeFree (t, b) l).outcome = .ok (t.put (b.time l) l, b) := by
      unfold placeFree stepLimit settle
      simp only [hrange, Bool.not_true, Bool.false_eq_true, if_false, hblock, at?_eq_none.2 htaken,
        Board.time_setTime_self, Attempt.outcome_pure]
    obtain ⟨t', ht'⟩ := ih (t := t.put (b.time l) l) (fun m hm => by
      obtain ⟨hrange', hblock', htaken'⟩ := hls m (List.mem_cons_of_mem _ hm)
      refine ⟨hrange', hblock', fun e he => ?_⟩
      rw [hput] at he
      rcases List.mem_cons.1 he with rfl | he
      · exact hl m hm
      · exact htaken' e he) hne
    exact ⟨t', Attempt.foldlM_cons_eq_ok.2 ⟨_, hplace, ht'⟩⟩

/-- The labels of a line in order of their ticks. -/
theorem Laid.increasing_labels (h : t.Laid b) : t.labels.Pairwise fun x y => b.time x < b.time y := by
  have hperm := Sort.perm_sortBy (fun a b : Int × Label => decide (a.1 ≤ b.1)) t.taken
  have hle : (Sort.sortBy (fun a b : Int × Label => decide (a.1 ≤ b.1)) t.taken).Pairwise fun a b =>
      decide (a.1 ≤ b.1) = true := Sort.pairwise_sortBy
    (fun a b => by simp only [decide_eq_true_eq]; omega) (fun a b c => by simp only [decide_eq_true_eq]; omega) t.taken
  have hne := List.pairwise_map.1 ((hperm.map Prod.fst).nodup_iff.2 h.nodup)
  refine List.pairwise_map.2 ((hle.and hne).imp_of_mem fun {e e'} he he' hlt => ?_)
  rw [h.time e (hperm.mem_iff.1 he), h.time e' (hperm.mem_iff.1 he')]
  simp only [decide_eq_true_eq] at hlt
  omega

theorem perm_labels (t : TickLine) : t.labels.Perm (t.taken.map Prod.snd) := (Sort.perm_sortBy _ _).map Prod.snd

end TickLine

/-! ## The whole -/

namespace Board

/-- The labels `ls` of `b` have got the ticks of `b'`, in the order `ls'`: one each, on a line of the given length,
members of a block together, and those of the last block where they were. -/
structure Placed (b : Board) (length : Int) (ls ls' : List Label) (b' : Board) : Prop where
  retimed : b.Retimed b'
  perm : ls'.Perm ls
  increasing : ls'.Pairwise fun x y => b'.time x < b'.time y
  range : ∀ l ∈ ls', 0 ≤ b'.time l ∧ b'.time l < length
  shift : ∃ shift : String → Int, shift Block.endName = 0 ∧
    ∀ l ∈ ls, ∀ name, (b.get l).block = some name → b'.time l = b.time l + shift name

/-- The instructions without a block, in the order in which they are fitted in. -/
def queue (b : Board) (ls : List Label) : List Label :=
  Sort.sortBy (fun x y => (b.get y).before (b.get x)) (ls.filter fun l => (b.get l).block.isNone)

theorem mem_queue {b : Board} {ls : List Label} {l : Label} : l ∈ b.queue ls ↔ l ∈ ls ∧ (b.get l).block = none := by
  rw [queue, Sort.mem_sortBy, List.mem_filter, Option.isNone_iff_eq_none]

theorem nodup_queue {b : Board} {ls : List Label} (h : ls.Nodup) : (b.queue ls).Nodup :=
  Sort.nodup_sortBy.2 (h.filter _)

/-- Placement separates the blocks, puts them on the line and fits everything else around them. -/
theorem place_eq_ok [Collation] {b b' : Board} {length : Int} {ls ls' : List Label} :
    (b.place length ls).outcome = .ok (ls', b') ↔ ∃ xs b₁ t₀ t,
      (Block.separate b (Block.collect b ls)).outcome = .ok (xs, b₁) ∧ 0 ≤ length ∧ length ≤ TickLine.maxLength ∧
      TickLine.placeBlocks ⟨length, xs, []⟩ b₁ = .ok t₀ ∧
      ((b₁.queue ls).foldlM TickLine.placeFree (t₀, b₁)).outcome = .ok (t, b') ∧ ls' = t.labels := by
  constructor
  · intro h
    obtain ⟨⟨xs, b₁⟩, hsep, h⟩ := Attempt.bind_eq_ok.1 h
    simp only at h
    split at h
    · cases h
    · rename_i hlength
      obtain ⟨t₀, hblocks, h⟩ := Attempt.bind_eq_ok.1 h
      obtain ⟨⟨t, b₂⟩, hfree, h⟩ := Attempt.bind_eq_ok.1 h
      cases h
      exact ⟨xs, b₁, t₀, t, hsep, by omega, by omega, Attempt.ofExcept_eq_ok.1 hblocks, hfree, rfl⟩
  · rintro ⟨xs, b₁, t₀, t, hsep, hlow, hhigh, hblocks, hfree, rfl⟩
    refine Attempt.bind_eq_ok.2 ⟨(xs, b₁), hsep, ?_⟩
    simp only
    rw [if_neg (by omega)]
    exact Attempt.bind_eq_ok.2 ⟨t₀, Attempt.ofExcept_eq_ok.2 hblocks, Attempt.bind_eq_ok.2 ⟨(t, b'), hfree, rfl⟩⟩

section Blocks

variable [Collation] {shift : String → Int} {b b₁ : Board} {length : Int} {ls : List Label} {xs : List Block}
  {t₀ : TickLine} (hvalid : ∀ l ∈ ls, l < b.size) (hs : Block.Shifted shift b (Block.collect b ls) b₁ xs)
  (hblocks : TickLine.placeBlocks ⟨length, xs, []⟩ b₁ = .ok t₀)

include hvalid hs hblocks

/-- The blocks stand where separation has put them. -/
theorem laid_of_blocks : t₀.Laid b₁ ∧ (⟨length, xs, []⟩ : TickLine).Gains t₀ (xs.flatMap Block.members) := by
  refine TickLine.laid_of_placeBlocks ⟨by simp, by simp, by simp, by simp, by simp, by simp⟩ (fun x hx => hx)
    (fun y hy l hl => ?_) hblocks
  rw [hs.blocks] at hy
  obtain ⟨x, hx, rfl⟩ := List.mem_map.1 hy
  obtain ⟨h1, h2⟩ := (Block.spans_of_mem_collect hx).bounds l hl
  refine ⟨?_, ?_, ?_, ?_⟩
  · rw [hs.retimed.size_eq]
    exact hvalid l ((Block.mem_members_iff hx).1 hl).1
  · rw [hs.retimed.block_eq, ((Block.mem_members_iff hx).1 hl).2]
    simp
  · rw [hs.time x hx l hl]
    exact Int.add_le_add_right h1 _
  · rw [hs.time x hx l hl]
    exact Int.add_le_add_right h2 _

theorem mem_of_blocks (l : Label) : l ∈ t₀.taken.map Prod.snd ↔ l ∈ ls ∧ (b.get l).block ≠ none := by
  have hon := (laid_of_blocks hvalid hs hblocks).2.labels
  rw [hs.blocks, List.flatMap_map, List.map_nil, List.append_nil] at hon
  rw [hon.mem_iff, List.mem_flatMap]
  constructor
  · rintro ⟨x, hx, hl⟩
    obtain ⟨h1, h2⟩ := (Block.mem_members_iff hx).1 hl
    exact ⟨h1, by rw [h2]; simp⟩
  · rintro ⟨hl, hb⟩
    obtain ⟨name, hname⟩ := Option.ne_none_iff_exists'.1 hb
    obtain ⟨x, hx, -, hlx⟩ := Block.exists_of_block hl hname
    exact ⟨x, hx, hlx⟩

/-- All other instructions are still to be fitted in. -/
theorem free_of_blocks {l : Label} (hl : l ∈ ls) (hfree : (b₁.get l).block = none) :
    l < b₁.size ∧ (b₁.get l).block = none ∧ l ∉ t₀.taken.map Prod.snd := by
  refine ⟨?_, hfree, fun hmem => ((mem_of_blocks hvalid hs hblocks l).1 hmem).2 ?_⟩
  · rw [hs.retimed.size_eq]
    exact hvalid l hl
  · rw [← hs.retimed.block_eq]
    exact hfree

end Blocks

/-- The blocks are separated first, and stay where they are then; all else stands outside them. -/
theorem placed_of_place [Collation] {b b' : Board} {length : Int} {ls ls' : List Label} (hvalid : ∀ l ∈ ls, l < b.size)
    (hnodup : ls.Nodup) (h : (b.place length ls).outcome = .ok (ls', b')) : b.Placed length ls ls' b' ∧
      ∃ xs b₁, (Block.separate b (Block.collect b ls)).outcome = .ok (xs, b₁) ∧ TickLine.FreeRetimed b₁ b' ∧
        ∀ l ∈ ls, (b.get l).block = none → ∀ x ∈ xs, ¬ (x.start ≤ b'.time l ∧ b'.time l ≤ x.finish) := by
  obtain ⟨xs, b₁, t₀, t, hsep, -, -, hblocks, hfree, rfl⟩ := place_eq_ok.1 h
  obtain ⟨shift, hs⟩ := Block.shifted_of_separate (Block.apart_collect hvalid hnodup) hsep
  obtain ⟨hlaid₀, hgain₀⟩ := laid_of_blocks hvalid hs hblocks
  obtain ⟨hlaid, hgain, hret⟩ := TickLine.laid_of_placeFree hlaid₀
    (fun l hl => free_of_blocks hvalid hs hblocks (mem_queue.1 hl).1 (mem_queue.1 hl).2) (nodup_queue hnodup) hfree
  have hlength : t.length = length := hgain.length.trans hgain₀.length
  have hperm : t.labels.Perm ls := by
    refine (TickLine.perm_labels t).trans (hgain.labels.trans ?_)
    refine List.perm_of_nodup_nodup_toFinset_eq ?_ hnodup ?_
    · exact hgain.labels.nodup_iff.1 hlaid.nodup_labels
    · ext l
      simp only [List.mem_toFinset, List.mem_append, mem_of_blocks hvalid hs hblocks, mem_queue, hs.retimed.block_eq]
      tauto
  refine ⟨⟨hs.retimed.trans hret.retimed, hperm, hlaid.increasing_labels, fun l hl => ?_, shift, hs.ending,
    fun l hl name hname => ?_⟩, xs, b₁, hsep, hret, fun l hl hname x hx hin => ?_⟩
  · obtain ⟨e, he, rfl⟩ := List.mem_map.1 ((TickLine.perm_labels t).mem_iff.1 hl)
    rw [hlaid.time e he, ← hlength]
    simpa [TickLine.inRange] using hlaid.range e he
  · obtain ⟨x, hx, rfl, hlx⟩ := Block.exists_of_block hl hname
    rw [hret.blocked l (by rw [hs.retimed.block_eq, hname]; simp), hs.time x hx l hlx]
  · obtain ⟨e, he, rfl⟩ := List.mem_map.1 ((TickLine.perm_labels t).mem_iff.1 (hperm.mem_iff.2 hl))
    have hnone := hlaid.free e he (by rw [hret.retimed.block_eq, hs.retimed.block_eq, hname])
    rw [TickLine.blockAt?, hgain.blocks, hgain₀.blocks] at hnone
    rw [hlaid.time e he] at hin
    exact List.find?_eq_none.1 hnone x hx (by simpa using hin)

end Board

/-- What placement makes of a draft. -/
theorem Draft.placed_of_place [Collation] {d d' : Draft} {length : Int} (hvalid : ∀ l ∈ d.list, l < d.board.size)
    (hnodup : d.list.Nodup) (h : (d.place length).outcome = .ok d') :
    d.board.Placed length d.list d'.list d'.board := by
  obtain ⟨⟨ls, b⟩, hp, hd⟩ := Attempt.bind_eq_ok.1 h
  cases hd
  exact (Board.placed_of_place hvalid hnodup hp).1

end PulseSequencer
