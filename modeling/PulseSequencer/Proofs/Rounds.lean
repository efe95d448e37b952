import PulseSequencer.Proofs.Placement

/-!
# How many rounds a placement takes

An instruction on its way looks at one tick in a round. It passes taken ticks only, towards earlier ones first and then,
if it comes to a block, on one side of that. Which instruction stands at a tick and which one goes on does not matter
for the ticks.

* `TickLine.Occupied`, `TickLine.Sweep`, `TickLine.exists_sweep` : taken ticks in a row, and that there is an end to
  them;
* `TickLine.Rounds`, `TickLine.exists_rounds_sweep` : how many rounds it takes, and that a taken tick takes one;
* `TickLine.Finds`, `TickLine.Concludes` : the free tick that an instruction gets to, and how its way ends;
* `TickLine.placeFree_rounds` : twice through the line at most.
-/

namespace PulseSequencer.TickLine

variable {origin : Label} {v : Traveller} {t t' : TickLine} {b : Board} {tick d : Int} {n : Nat}

/-! ## Taken ticks -/

/-- The tick is on the line, outside all blocks and taken. -/
structure Occupied (t : TickLine) (tick : Int) : Prop where
  range : t.inRange tick = true
  block : t.blockAt? tick = none
  taken : (t.at? tick).isSome = true

/-- The lines differ only in what stands at the ticks that are taken. -/
structure Alike (t t' : TickLine) : Prop where
  length : t'.length = t.length
  blocks : t'.blocks = t.blocks
  taken : ∀ k, (t'.at? k).isSome = (t.at? k).isSome

theorem at?_put (t : TickLine) (tick : Int) (l : Label) (k : Int) :
    (t.put tick l).at? k = if k = tick then some l else t.at? k := by
  unfold put at?
  rw [List.find?_cons]
  split
  · rename_i heq
    rw [if_pos (beq_iff_eq.1 heq).symm]
    rfl
  · rename_i hne
    have hne : k ≠ tick := fun heq => by simp [heq] at hne
    rw [if_neg hne, List.find?_filter]
    congr 2
    funext e
    by_cases he : e.1 = k
    · simp [he, hne]
    · simp [he]

theorem Alike.refl (t : TickLine) : t.Alike t := ⟨rfl, rfl, fun _ => rfl⟩

theorem Alike.trans {t'' : TickLine} (h : t.Alike t') (h' : t'.Alike t'') : t.Alike t'' :=
  ⟨h'.length.trans h.length, h'.blocks.trans h.blocks, fun k => (h'.taken k).trans (h.taken k)⟩

theorem Alike.put (h : t.Occupied tick) (l : Label) : t.Alike (t.put tick l) := by
  refine ⟨rfl, rfl, fun k => ?_⟩
  rw [at?_put]
  split
  · rename_i hk
    rw [hk, h.taken]
    rfl
  · rfl

theorem Alike.inRange (h : t.Alike t') (tick : Int) : t'.inRange tick = t.inRange tick := by
  unfold TickLine.inRange
  rw [h.length]

theorem Alike.blockAt? (h : t.Alike t') (tick : Int) : t'.blockAt? tick = t.blockAt? tick := by
  unfold TickLine.blockAt?
  rw [h.blocks]

theorem Alike.occupied (h : t.Alike t') : t'.Occupied tick ↔ t.Occupied tick := by
  constructor
  · rintro ⟨h1, h2, h3⟩
    exact ⟨h.inRange tick ▸ h1, h.blockAt? tick ▸ h2, h.taken tick ▸ h3⟩
  · rintro ⟨h1, h2, h3⟩
    exact ⟨(h.inRange tick).trans h1, (h.blockAt? tick).trans h2, (h.taken tick).trans h3⟩

/-- Taken ticks in a row from `tick` on, and no further one. -/
structure Sweep (t : TickLine) (tick d : Int) (n : Nat) : Prop where
  occupied : ∀ m < n, t.Occupied (tick + d * m)
  last : ¬ t.Occupied (tick + d * n)

theorem Occupied.bounds (h : t.Occupied tick) : 0 ≤ tick ∧ tick < t.length := by
  have := h.range
  simpa [TickLine.inRange] using this

theorem exists_sweep (t : TickLine) (tick : Int) (hd : d = -1 ∨ d = 1) : ∃ n ≤ t.length.toNat, t.Sweep tick d n := by
  have hex : ∃ n : Nat, n ≤ t.length.toNat ∧ ¬ t.Occupied (tick + d * n) := by
    by_contra hall
    push Not at hall
    -- all ticks of the row would be on the line, one more than it has
    have hfirst := (hall 0 (Nat.zero_le _)).bounds
    have hlast := (hall t.length.toNat le_rfl).bounds
    rcases hd with rfl | rfl <;> omega
  obtain ⟨m, hle, hm⟩ := hex
  have hfind : ∃ n : Nat, ¬ t.Occupied (tick + d * n) := ⟨m, hm⟩
  classical
  refine ⟨Nat.find hfind, (Nat.find_le hm).trans hle, fun k hk => ?_, Nat.find_spec hfind⟩
  exact not_not.1 (Nat.find_min hfind hk)

theorem Sweep.eq {m : Nat} (h : t.Sweep tick d n) (h' : t.Sweep tick d m) : n = m := by
  rcases Nat.lt_trichotomy n m with hlt | heq | hlt
  · exact absurd (h'.occupied n hlt) h.last
  · exact heq
  · exact absurd (h.occupied m hlt) h'.last

/-! ## Rounds -/

/-- With fewer than `n` rounds an instruction is given up, with `n` or more the result is `r`. -/
structure Rounds (origin : Label) (v : Traveller) (t : TickLine) (b : Board) (n : Nat)
    (r : Attempt (TickLine × Board)) : Prop where
  few : ∀ m < n, ∃ f, (settle origin m v t b).outcome = .error (.fault f) ∧ f.kind = .internal
  enough : ∀ m, n ≤ m → settle origin m v t b = r

theorem rounds_one {r : Attempt (TickLine × Board)} (h : ∀ m, settle origin (m + 1) v t b = r) :
    Rounds origin v t b 1 r where
  few m hm := by
    rw [Nat.lt_one_iff.1 hm]
    exact ⟨_, rfl, rfl⟩
  enough m hm := by
    obtain ⟨m, rfl⟩ := Nat.exists_eq_add_of_le' hm
    exact h m

/-- One round more before the others. -/
theorem Rounds.step (ws : List Warning) {v' : Traveller} {b' : Board} {r : Attempt (TickLine × Board)}
    (h : Rounds origin v' t' b' n r)
    (hstep : ∀ m, settle origin (m + 1) v t b = Attempt.record ws >>= fun _ => settle origin m v' t' b') :
    Rounds origin v t b (n + 1) (Attempt.record ws >>= fun _ => r) where
  few m hm := by
    cases m with
    | zero => exact ⟨_, rfl, rfl⟩
    | succ m =>
      rw [hstep, Attempt.outcome_bind_of_ok (Attempt.outcome_record ws)]
      exact h.few m (Nat.lt_of_succ_lt_succ hm)
  enough m hm := by
    obtain ⟨m, rfl⟩ := Nat.exists_eq_add_of_le' (Nat.le_of_add_left_le hm)
    rw [hstep, h.enough m (Nat.le_of_succ_le_succ hm)]

/-- A taken tick takes a round, and what stands at it may go on instead. -/
theorem exists_rounds_occupied (h : t.Occupied v.tick) : ∃ l t' b', t.Alike t' ∧ ∀ n r,
    Rounds origin { v with label := l, tick := v.tick + v.direction } t' b' n r → Rounds origin v t b (n + 1) r := by
  obtain ⟨o, hat⟩ := Option.isSome_iff_exists.1 h.taken
  by_cases hyields : yields b v o = true
  · refine ⟨v.label, t, b, .refl t, fun n r hr => hr.step [] fun m => ?_⟩
    rw [settle, h.block]
    simp only [h.range, hat, hyields]
    rfl
  · refine ⟨o, t.put v.tick v.label, b.setTime v.label v.tick, .put h v.label, fun n r hr => hr.step [] fun m => ?_⟩
    rw [settle, h.block]
    simp only [h.range, hat, hyields]
    rfl

/-- Taken ticks in a row take a round each. -/
theorem exists_rounds_sweep : ∀ {v : Traveller} {t : TickLine} {b : Board},
    (∀ m < n, t.Occupied (v.tick + v.direction * (m : Nat))) → ∃ l t' b', t.Alike t' ∧ ∀ k r,
      Rounds origin { v with label := l, tick := v.tick + v.direction * n } t' b' k r →
      Rounds origin v t b (n + k) r := by
  induction n with
  | zero =>
    intro v t b _
    refine ⟨v.label, t, b, .refl t, fun k r hr => ?_⟩
    simpa using hr
  | succ n ih =>
    intro v t b h
    have hfirst : t.Occupied v.tick := by simpa using h 0 n.succ_pos
    obtain ⟨l₁, t₁, b₁, halike₁, hround⟩ := @exists_rounds_occupied origin v t b hfirst
    obtain ⟨l₂, t₂, b₂, halike₂, hrest⟩ := @ih { v with label := l₁, tick := v.tick + v.direction } t₁ b₁ fun m hm => by
      rw [halike₁.occupied]
      have := h (m + 1) (Nat.succ_lt_succ hm)
      push_cast at this
      rwa [mul_add, mul_one, add_comm (v.direction * _), ← add_assoc] at this
    refine ⟨l₂, t₂, b₂, halike₁.trans halike₂, fun k r hr => ?_⟩
    have htick : v.tick + v.direction * (n + 1 : Nat) = v.tick + v.direction + v.direction * n := by
      push_cast
      ring
    rw [htick] at hr
    rw [Nat.add_right_comm]
    exact hround _ _ (hrest k r hr)

/-! ## The last round -/

/-- One more tick is taken. -/
structure Fills (t : TickLine) (tick : Int) (t' : TickLine) : Prop where
  length : t'.length = t.length
  blocks : t'.blocks = t.blocks
  taken : ∀ k, (t'.at? k).isSome = true ↔ k = tick ∨ (t.at? k).isSome = true

theorem Alike.vacant (h : t.Alike t') : t'.Vacant tick ↔ t.Vacant tick := by
  have htaken : t'.at? tick = none ↔ t.at? tick = none := by
    rw [← Option.isNone_iff_eq_none, ← Option.isNone_iff_eq_none, ← Option.not_isSome, ← Option.not_isSome, h.taken]
  constructor
  · rintro ⟨h1, h2, h3⟩
    exact ⟨h.inRange tick ▸ h1, h.blockAt? tick ▸ h2, htaken.1 h3⟩
  · rintro ⟨h1, h2, h3⟩
    exact ⟨(h.inRange tick).trans h1, (h.blockAt? tick).trans h2, htaken.2 h3⟩

theorem Alike.fills (h : t.Alike t') (l : Label) : t.Fills tick (t'.put tick l) := by
  refine ⟨h.length, h.blocks, fun k => ?_⟩
  rw [at?_put]
  split
  · rename_i hk
    simp [hk]
  · rename_i hk
    rw [h.taken]
    simp [hk]

/-- The result of a search for a free tick: the one that is sought becomes taken, or there is none and no room. -/
def Concludes (t : TickLine) (sought : Int → Prop) (r : Attempt (TickLine × Board)) : Prop :=
  (∃ tick t' b', sought tick ∧ t.Fills tick t' ∧ r.outcome = .ok (t', b')) ∨
    (∀ tick, ¬ sought tick) ∧ ∃ f, r.outcome = .error (.fault f) ∧ f.kind = .notEnoughRoom

theorem rounds_vacant (h : t.Vacant v.tick) :
    Rounds origin v t b 1 (pure (t.put v.tick v.label, b.setTime v.label v.tick)) := by
  refine rounds_one fun m => ?_
  rw [settle, h.block]
  simp only [h.range, h.at?]
  rfl

theorem exists_rounds_off (h : t.inRange v.tick = false) :
    ∃ f, Rounds origin v t b 1 (.fail f) ∧ f.kind = .notEnoughRoom := by
  refine ⟨noRoom b origin v, rounds_one fun m => ?_, rfl⟩
  rw [settle, h]
  rfl

theorem exists_rounds_next {x : Block} (hrange : t.inRange v.tick = true) (hblock : t.blockAt? v.tick = some x)
    (hleaving : v.leaving = true) : ∃ f, Rounds origin v t b 1 (.fail f) ∧ f.kind = .notEnoughRoom := by
  refine ⟨?f, rounds_one fun m => ?_, ?_⟩
  rotate_left
  · rw [settle, hblock]
    simp only [hrange, hleaving]
    rfl
  · rfl

theorem exists_rounds_leave {x : Block} (hrange : t.inRange v.tick = true) (hblock : t.blockAt? v.tick = some x)
    (hleaving : v.leaving = false) : ∃ ws, ∀ n r, Rounds origin (leave v x) t b n r →
      Rounds origin v t b (n + 1) (Attempt.record ws >>= fun _ => r) := by
  refine ⟨?ws, fun n r hr => hr.step ?ws fun m => ?_⟩
  rotate_left
  rw [settle, hblock]
  simp only [hrange, hleaving]
  rfl

/-- In the last round an instruction is at a free tick, or there is no room for it. -/
theorem exists_rounds_last (h : ¬ t.Occupied v.tick)
    (hblock : t.inRange v.tick = true → v.leaving = false → t.blockAt? v.tick = none) :
    ∃ r, Rounds origin v t b 1 r ∧ t.Concludes (fun s => s = v.tick ∧ t.Vacant s) r := by
  have hfail : (∃ f, Rounds origin v t b 1 (.fail f) ∧ f.kind = .notEnoughRoom) → ¬ t.Vacant v.tick →
      ∃ r, Rounds origin v t b 1 r ∧ t.Concludes (fun s => s = v.tick ∧ t.Vacant s) r := by
    rintro ⟨f, hf, hkind⟩ hnot
    refine ⟨_, hf, .inr ⟨?_, f, rfl, hkind⟩⟩
    rintro s ⟨rfl, hs⟩
    exact hnot hs
  cases hrange : t.inRange v.tick with
  | false => exact hfail (exists_rounds_off hrange) fun hvacant => Bool.false_ne_true (hrange.symm.trans hvacant.range)
  | true =>
    cases hx : t.blockAt? v.tick with
    | some x =>
      cases hleaving : v.leaving with
      | false => cases (hblock hrange hleaving).symm.trans hx
      | true =>
        refine hfail (exists_rounds_next hrange hx hleaving) fun hvacant => ?_
        cases hx.symm.trans hvacant.block
    | none =>
      have hvacant : t.Vacant v.tick := by
        refine ⟨hrange, hx, ?_⟩
        rw [← Option.not_isSome_iff_eq_none]
        exact fun hat => h ⟨hrange, hx, hat⟩
      exact ⟨_, rounds_vacant hvacant, .inl ⟨_, _, _, ⟨rfl, hvacant⟩, (Alike.refl t).fills v.label, rfl⟩⟩

/-! ## The whole way -/

theorem Concludes.of_alike {P Q : Int → Prop} {r : Attempt (TickLine × Board)} (hr : t'.Concludes P r) (h : t.Alike t')
    (hPQ : ∀ s, P s ↔ Q s) : t.Concludes Q r := by
  rcases hr with ⟨s, t'', b', hs, hfills, hok⟩ | ⟨hnone, hfail⟩
  · refine .inl ⟨s, t'', b', (hPQ s).1 hs, ⟨hfills.length.trans h.length, hfills.blocks.trans h.blocks, fun k => ?_⟩,
      hok⟩
    rw [hfills.taken, h.taken]
  · exact .inr ⟨fun s hs => hnone s ((hPQ s).2 hs), hfail⟩

/-- The first tick in a row that is not taken, if it is free. -/
def Ahead (t : TickLine) (tick d s : Int) : Prop := ∃ n : Nat, t.Sweep tick d n ∧ s = tick + d * n ∧ t.Vacant s

theorem Sweep.ahead_iff {s : Int} (h : t.Sweep tick d n) : t.Ahead tick d s ↔ s = tick + d * n ∧ t.Vacant s := by
  constructor
  · rintro ⟨m, hm, hs⟩
    rwa [hm.eq h] at hs
  · exact fun hs => ⟨n, h, hs⟩

theorem Alike.sweep (h : t.Alike t') : t'.Sweep tick d n ↔ t.Sweep tick d n := by
  constructor
  · rintro ⟨h1, h2⟩
    exact ⟨fun m hm => h.occupied.1 (h1 m hm), mt h.occupied.2 h2⟩
  · rintro ⟨h1, h2⟩
    exact ⟨fun m hm => h.occupied.2 (h1 m hm), mt h.occupied.1 h2⟩

theorem Alike.ahead (h : t.Alike t') {s : Int} : t'.Ahead tick d s ↔ t.Ahead tick d s := by
  simp only [Ahead, h.sweep, h.vacant]

/-- Once out of a block, an instruction goes one way. -/
theorem exists_rounds_ahead (hd : v.direction = -1 ∨ v.direction = 1) (hleaving : v.leaving = true) :
    ∃ n ≤ t.length.toNat + 1, ∃ r, Rounds origin v t b n r ∧ t.Concludes (t.Ahead v.tick v.direction) r := by
  obtain ⟨m, hm, hsweep⟩ := exists_sweep t v.tick hd
  obtain ⟨l, t', b', halike, hrounds⟩ := @exists_rounds_sweep origin m v t b hsweep.occupied
  obtain ⟨r, hr, hend⟩ := @exists_rounds_last origin { v with label := l, tick := v.tick + v.direction * m } t' b'
    (mt halike.occupied.1 hsweep.last) fun _ hnot => by cases hleaving.symm.trans hnot
  refine ⟨m + 1, Nat.succ_le_succ hm, r, hrounds 1 r hr, hend.of_alike halike fun s => ?_⟩
  rw [hsweep.ahead_iff, halike.vacant]

/-- The free tick that an instruction gets to: the first one back from its own that is not taken or, if that is in a
block, the first one on the side of the block's anchor. -/
inductive Finds (t : TickLine) (tick s : Int) : Prop
  | back (h : t.Ahead tick (-1) s)
  | beside {n : Nat} {x : Block} (hsweep : t.Sweep tick (-1) n) (hrange : t.inRange (tick + -1 * n) = true)
      (hblock : t.blockAt? (tick + -1 * n) = some x)
      (h : if x.anchor ≤ tick + -1 * n then t.Ahead (x.finish + 1) 1 s else t.Ahead (x.start - 1) (-1) s)

theorem Sweep.finds_iff {s : Int} (h : t.Sweep tick (-1) n)
    (hblock : t.inRange (tick + -1 * n) = true → t.blockAt? (tick + -1 * n) = none) :
    t.Finds tick s ↔ t.Ahead tick (-1) s := by
  refine ⟨fun hfinds => ?_, .back⟩
  cases hfinds with
  | back h => exact h
  | beside hsweep hrange hx _ =>
    rw [hsweep.eq h] at hrange hx
    cases (hblock hrange).symm.trans hx

theorem Sweep.finds_iff_beside {s : Int} {x : Block} (h : t.Sweep tick (-1) n)
    (hrange : t.inRange (tick + -1 * n) = true) (hblock : t.blockAt? (tick + -1 * n) = some x) :
    t.Finds tick s ↔
      if x.anchor ≤ tick + -1 * n then t.Ahead (x.finish + 1) 1 s else t.Ahead (x.start - 1) (-1) s := by
  refine ⟨fun hfinds => ?_, .beside h hrange hblock⟩
  cases hfinds with
  | back hahead =>
    cases (h.ahead_iff.1 hahead).1
    cases hblock.symm.trans (h.ahead_iff.1 hahead).2.block
  | beside hsweep _ hx hside =>
    cases hsweep.eq h
    cases hblock.symm.trans hx
    exact hside

theorem ahead_leave (v : Traveller) (x : Block) (s : Int) : t.Ahead (leave v x).tick (leave v x).direction s ↔
    if x.anchor ≤ v.tick then t.Ahead (x.finish + 1) 1 s else t.Ahead (x.start - 1) (-1) s := by
  unfold leave
  split <;> exact Iff.rfl

theorem direction_leave (v : Traveller) (x : Block) : (leave v x).direction = -1 ∨ (leave v x).direction = 1 := by
  unfold leave
  split
  · exact .inr rfl
  · exact .inl rfl

theorem leaving_leave (v : Traveller) (x : Block) : (leave v x).leaving = true := by
  unfold leave
  split <;> rfl

/-- Twice through the line at most: back to a block, and from there to one side. -/
theorem exists_rounds (hd : v.direction = -1) (hleaving : v.leaving = false) : ∃ n ≤ 2 * t.length.toNat + 2, ∃ r,
    Rounds origin v t b n r ∧ t.Concludes (t.Finds v.tick) r := by
  obtain ⟨m, hm, hsweep⟩ := exists_sweep t v.tick (.inl hd)
  obtain ⟨l, t', b', halike, hrounds⟩ := @exists_rounds_sweep origin m v t b hsweep.occupied
  rw [hd] at hsweep hrounds
  by_cases hblock : t.inRange (v.tick + -1 * m) = true → t.blockAt? (v.tick + -1 * m) = none
  · obtain ⟨r, hr, hend⟩ := @exists_rounds_last origin ⟨l, v.tick + -1 * m, -1, v.leaving⟩ t' b'
      (mt halike.occupied.1 hsweep.last) fun hrange _ => by
        rw [halike.inRange] at hrange
        rw [halike.blockAt?]
        exact hblock hrange
    refine ⟨m + 1, by omega, r, hrounds 1 r hr, hend.of_alike halike fun s => ?_⟩
    rw [hsweep.finds_iff hblock, hsweep.ahead_iff, halike.vacant]
  · rw [Classical.not_imp] at hblock
    obtain ⟨hrange, hx⟩ := hblock
    obtain ⟨x, hx⟩ := Option.ne_none_iff_exists'.1 hx
    obtain ⟨ws, hleave⟩ := @exists_rounds_leave origin ⟨l, v.tick + -1 * m, -1, v.leaving⟩ t' b' x
      ((halike.inRange _).trans hrange) ((halike.blockAt? _).trans hx) hleaving
    obtain ⟨k, hk, r, hr, hend⟩ := @exists_rounds_ahead origin (leave ⟨l, v.tick + -1 * m, -1, v.leaving⟩ x) t' b'
      (direction_leave _ _) (leaving_leave _ _)
    rw [halike.length] at hk
    refine ⟨m + (k + 1), by omega, _, hrounds _ _ (hleave k r hr), ?_⟩
    refine Concludes.of_alike (P := t'.Ahead _ _) hend halike fun s => ?_
    rw [ahead_leave, hsweep.finds_iff_beside hrange hx]
    simp only [halike.ahead]

/-- So many rounds are within the limit. -/
theorem Rounds.placeFree_eq {l : Label} {r : Attempt (TickLine × Board)} (h : Rounds l ⟨l, b.time l, -1, false⟩ t b n r)
    (hn : n ≤ 2 * t.length.toNat + 2) : placeFree (t, b) l = r := by
  refine h.enough t.stepLimit ?_
  unfold stepLimit
  omega

/-- Placing a free-standing instruction takes at most twice as many rounds as the line has ticks, and two. In the last
one the free tick that it finds becomes taken, or there is none and no room; so it is never given up. -/
theorem placeFree_rounds (t : TickLine) (b : Board) (l : Label) : ∃ n ≤ 2 * t.length.toNat + 2,
    Rounds l ⟨l, b.time l, -1, false⟩ t b n (placeFree (t, b) l) ∧
    t.Concludes (t.Finds (b.time l)) (placeFree (t, b) l) := by
  obtain ⟨n, hn, r, hr, hend⟩ := @exists_rounds l ⟨l, b.time l, -1, false⟩ t b rfl rfl
  rw [hr.placeFree_eq hn]
  exact ⟨n, hn, hr, hend⟩

end PulseSequencer.TickLine
