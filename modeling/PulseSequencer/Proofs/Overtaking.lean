import PulseSequencer.Proofs.Settling

/-!
# Instructions that overtake each other

Free-standing instructions are placed from the last tick to the first. On its way an instruction gets past stronger ones
only. What has been pushed back before it sets out, though, may be in front of it from the start.

* `TickLine.Traveller.station` : where an instruction is, in half ticks;
* `TickLine.lt_of_settle` : no instruction gets past another one of its rank;
* `TickLine.station_le_of_settle`, `TickLine.le_station_of_settle` : how far an instruction that settles moves others;
* `Board.later`, `Board.place_order` : when two SETs come out in the order of their ticks.
-/

namespace PulseSequencer

namespace TickLine

/-- Where an instruction is, in half ticks: at its tick if it is on the line, and if it is on its way, between the tick
it comes from and the one it tries next. -/
def Traveller.station (v : Traveller) (b : Board) (l : Label) : Int :=
  if l = v.label then 2 * v.tick - v.direction else 2 * b.time l

variable {v v₁ : Traveller} {t t₁ t' : TickLine} {b b₁ b' : Board} {z : Label}

theorem Traveller.station_self : v.station b v.label = 2 * v.tick - v.direction := if_pos rfl

theorem Traveller.station_of_ne (h : z ≠ v.label) : v.station b z = 2 * b.time z := if_neg h

/-! ## The line -/

theorem Laid.mem_taken (h : t.Laid b) (hz : z ∈ t.taken.map Prod.snd) : (b.time z, z) ∈ t.taken := by
  obtain ⟨e, he, rfl⟩ := List.mem_map.1 hz
  rw [h.time e he]
  exact he

theorem Laid.time_of_at? (h : t.Laid b) {tick : Int} {o : Label} (hat : t.at? tick = some o) : b.time o = tick :=
  h.time _ (mem_of_at? hat)

theorem Laid.eq_of_at? (h : t.Laid b) {tick : Int} {o : Label} (hat : t.at? tick = some o)
    (hz : z ∈ t.taken.map Prod.snd) (htick : b.time z = tick) : z = o :=
  congrArg Prod.snd (List.inj_on_of_nodup_map h.nodup (h.mem_taken hz) (mem_of_at? hat) htick)

/-- What has no block is in front of a block or behind it. -/
theorem Laid.outside (h : t.Laid b) {tick : Int} {u : Block} (hblock : t.blockAt? tick = some u)
    (hz : z ∈ t.taken.map Prod.snd) (hfree : (b.get z).block = none) : b.time z < u.start ∨ u.finish < b.time z := by
  have hnone := List.find?_eq_none.1 (h.free _ (h.mem_taken hz) hfree) u (List.mem_of_find?_eq_some hblock)
  simp only [Bool.and_eq_true, decide_eq_true_eq] at hnone
  omega

theorem bounds_of_blockAt? {tick : Int} {u : Block} (h : t.blockAt? tick = some u) :
    u.start ≤ tick ∧ tick ≤ u.finish := by simpa using List.find?_some h

/-! ## Stations -/

theorem Traveller.Heading.step (h : v.Heading) (hs : Step v t b v₁ t₁ b₁) : v₁.Heading := by
  cases hs with
  | leave => exact .leave
  | pass => exact ⟨h.unit, h.back⟩
  | exchange => exact ⟨h.unit, h.back⟩

theorem leave_sides (v : Traveller) (u : Block) : ((leave v u).tick = u.finish + 1 ∧ (leave v u).direction = 1) ∨
    ((leave v u).tick = u.start - 1 ∧ (leave v u).direction = -1) := by
  unfold leave
  split
  · exact .inl ⟨rfl, rfl⟩
  · exact .inr ⟨rfl, rfl⟩

/-- Only on its way back does an instruction look further, and only past a stronger one. -/
theorem Traveller.Heading.of_yields (h : v.Heading) {o : Label} (hyields : yields b v o = true) :
    v.leaving = false ∧ v.direction = -1 ∧ rank (b.get v.label) < rank (b.get o) := by
  unfold yields at hyields
  rw [Bool.and_eq_true, Bool.not_eq_true'] at hyields
  obtain ⟨hleaving, hrank⟩ := hyields
  have hback := h.back hleaving
  rw [if_pos (by omega), decide_eq_true_eq] at hrank
  exact ⟨hleaving, hback, hrank⟩

section Stations

variable (h : Rides v t b) (hz : z ∈ v.label :: t.taken.map Prod.snd)

include h hz

theorem Rides.station_last (hvacant : t.Vacant v.tick) :
    (v.station b z = 2 * v.tick - v.direction ∧ (b.setTime v.label v.tick).time z = v.tick) ∨
      ∃ k ≠ v.tick, v.station b z = 2 * k ∧ (b.setTime v.label v.tick).time z = k := by
  have hlaid := h.laid.put h.valid h.free h.off hvacant.range hvacant.block
  by_cases hzv : z = v.label
  · subst hzv
    exact .inl ⟨Traveller.station_self, hlaid.time (v.tick, v.label) List.mem_cons_self⟩
  · have hmem := h.laid.mem_taken ((List.mem_cons.1 hz).resolve_left hzv)
    have hne : b.time z ≠ v.tick := at?_eq_none.1 hvacant.at? _ hmem
    refine .inr ⟨b.time z, hne, Traveller.station_of_ne hzv, hlaid.time (b.time z, z) ?_⟩
    rw [taken_put_of_none hvacant.at?]
    exact List.mem_cons_of_mem _ hmem

/-- Nothing but the members of a block stands between the places on both sides of it. -/
theorem Rides.station_leave {u : Block} (hblock : t.blockAt? v.tick = some u) (hfree : (b.get z).block = none) :
    (z = v.label ∧ (leave v u).station b z = 2 * (leave v u).tick - (leave v u).direction) ∨
      ∃ k, (k < u.start ∨ u.finish < k) ∧ v.station b z = 2 * k ∧ (leave v u).station b z = 2 * k := by
  by_cases hzv : z = v.label
  · subst hzv
    rw [← label_leave v u]
    exact .inl ⟨rfl, Traveller.station_self⟩
  · have hmem := (List.mem_cons.1 hz).resolve_left hzv
    refine .inr ⟨b.time z, h.laid.outside hblock hmem hfree, Traveller.station_of_ne hzv, Traveller.station_of_ne ?_⟩
    rw [label_leave]
    exact hzv

theorem Rides.station_pass {o : Label} (hat : t.at? v.tick = some o) :
    (z = v.label ∧ v.station b z = 2 * v.tick - v.direction ∧
        Traveller.station { v with tick := v.tick + v.direction } b z = 2 * v.tick + v.direction) ∨
      ∃ k, (k = v.tick → z = o) ∧ v.station b z = 2 * k ∧
        Traveller.station { v with tick := v.tick + v.direction } b z = 2 * k := by
  by_cases hzv : z = v.label
  · subst hzv
    refine .inl ⟨rfl, Traveller.station_self, ?_⟩
    have hnew : Traveller.station { v with tick := v.tick + v.direction } b v.label =
        2 * (v.tick + v.direction) - v.direction := if_pos rfl
    omega
  · have hmem := (List.mem_cons.1 hz).resolve_left hzv
    exact .inr ⟨b.time z, h.laid.eq_of_at? hat hmem, Traveller.station_of_ne hzv, if_neg hzv⟩

/-- The two that change places go the same way by half a tick. -/
theorem Rides.station_exchange {o : Label} (hrange : t.inRange v.tick = true) (hblock : t.blockAt? v.tick = none)
    (hat : t.at? v.tick = some o) :
    (v.station b z = 2 * v.tick - v.direction ∧ Traveller.station { v with label := o, tick := v.tick + v.direction }
        (b.setTime v.label v.tick) z = 2 * v.tick) ∨
      (v.station b z = 2 * v.tick ∧ Traveller.station { v with label := o, tick := v.tick + v.direction }
        (b.setTime v.label v.tick) z = 2 * v.tick + v.direction) ∨
      ∃ k ≠ v.tick, v.station b z = 2 * k ∧ Traveller.station { v with label := o, tick := v.tick + v.direction }
        (b.setTime v.label v.tick) z = 2 * k := by
  have hlaid := h.laid.put h.valid h.free h.off hrange hblock
  have ho : o ≠ v.label := fun heq => h.off (heq ▸ List.mem_map.2 ⟨_, mem_of_at? hat, rfl⟩)
  by_cases hzv : z = v.label
  · subst hzv
    have hnew : Traveller.station { v with label := o, tick := v.tick + v.direction }
        (b.setTime v.label v.tick) v.label = 2 * (b.setTime v.label v.tick).time v.label := if_neg ho.symm
    rw [hnew, hlaid.time (v.tick, v.label) List.mem_cons_self]
    exact .inl ⟨Traveller.station_self, rfl⟩
  have hmem := (List.mem_cons.1 hz).resolve_left hzv
  rw [Traveller.station_of_ne hzv]
  by_cases hzo : z = o
  · subst hzo
    have hnew : Traveller.station { v with label := z, tick := v.tick + v.direction } (b.setTime v.label v.tick) z =
        2 * (v.tick + v.direction) - v.direction := if_pos rfl
    rw [h.laid.time_of_at? hat]
    exact .inr (.inl ⟨rfl, by omega⟩)
  · have hne : b.time z ≠ v.tick := fun heq => hzo (h.laid.eq_of_at? hat hmem heq)
    have hnew : Traveller.station { v with label := o, tick := v.tick + v.direction } (b.setTime v.label v.tick) z =
        2 * (b.setTime v.label v.tick).time z := if_neg hzo
    refine .inr (.inr ⟨b.time z, hne, rfl, ?_⟩)
    rw [hnew, hlaid.time (b.time z, z)]
    exact List.mem_cons_of_mem _ (List.mem_filter.2 ⟨h.laid.mem_taken hmem, bne_iff_ne.2 hne⟩)

end Stations

/-! ## Order -/

section Order

variable {x y : Label}

/-- A step changes the order of two instructions only if the stronger one is in front. -/
theorem Rides.lt_step (h : Rides v t b) (hv : v.Heading) (hs : Step v t b v₁ t₁ b₁)
    (hx : x ∈ v.label :: t.taken.map Prod.snd) (hy : y ∈ v.label :: t.taken.map Prod.snd)
    (hxfree : (b.get x).block = none) (hyfree : (b.get y).block = none) (hrank : rank (b.get x) ≤ rank (b.get y))
    (hlt : v.station b x < v.station b y) : v₁.station b₁ x < v₁.station b₁ y := by
  cases hs with
  | leave hblock hfirst =>
    rename_i u
    have hin := bounds_of_blockAt? hblock
    have hback := hv.back hfirst
    have hself : v.station b v.label = 2 * v.tick - v.direction := Traveller.station_self
    have hsides := leave_sides v u
    rcases h.station_leave hx hblock hxfree with ⟨rfl, hx₁⟩ | ⟨k, hk, hx₀, hx₁⟩ <;>
      rcases h.station_leave hy hblock hyfree with ⟨rfl, hy₁⟩ | ⟨m, hm, hy₀, hy₁⟩ <;> omega
  | pass hblock hat hyields =>
    obtain ⟨-, hback, hstrong⟩ := hv.of_yields hyields
    rcases h.station_pass hx hat with ⟨rfl, hx₀, hx₁⟩ | ⟨k, hk, hx₀, hx₁⟩ <;>
      rcases h.station_pass hy hat with ⟨rfl, hy₀, hy₁⟩ | ⟨m, hm, hy₀, hy₁⟩
    · omega
    · omega
    · -- the one that is passed would be the weaker one
      have hne : k ≠ v.tick := fun heq => absurd (hk heq ▸ hrank) (by omega)
      omega
    · omega
  | exchange hrange hblock hat =>
    have hunit := hv.unit
    rcases h.station_exchange hx hrange hblock hat with ⟨hx₀, hx₁⟩ | ⟨hx₀, hx₁⟩ | ⟨k, hk, hx₀, hx₁⟩ <;>
      rcases h.station_exchange hy hrange hblock hat with ⟨hy₀, hy₁⟩ | ⟨hy₀, hy₁⟩ | ⟨m, hm, hy₀, hy₁⟩ <;> omega

theorem rank_eq (h : b.Retimed b₁) (l : Label) : rank (b₁.get l) = rank (b.get l) := by
  unfold rank
  rw [h.action_eq]

/-- No instruction gets past one that is not stronger. -/
theorem lt_of_settle {origin : Label} {steps : Nat} (h : Rides v t b) (hv : v.Heading)
    (hok : (settle origin steps v t b).outcome = .ok (t', b')) (hx : x ∈ v.label :: t.taken.map Prod.snd)
    (hy : y ∈ v.label :: t.taken.map Prod.snd) (hxfree : (b.get x).block = none) (hyfree : (b.get y).block = none)
    (hrank : rank (b.get x) ≤ rank (b.get y)) (hlt : v.station b x < v.station b y) : b'.time x < b'.time y := by
  refine settle_induction (motive := fun v t b => v.Heading → x ∈ v.label :: t.taken.map Prod.snd →
    y ∈ v.label :: t.taken.map Prod.snd → (b.get x).block = none → (b.get y).block = none →
    rank (b.get x) ≤ rank (b.get y) → v.station b x < v.station b y → b'.time x < b'.time y) ?_ ?_
    h hok hv hx hy hxfree hyfree hrank hlt
  · intro v t b h hvacant hr hv hx hy _ _ _ hlt
    obtain rfl : b' = b.setTime v.label v.tick := congrArg Prod.snd hr
    have hunit := hv.unit
    rcases h.station_last hx hvacant with ⟨hx₀, hx₁⟩ | ⟨k, hk, hx₀, hx₁⟩ <;>
      rcases h.station_last hy hvacant with ⟨hy₀, hy₁⟩ | ⟨m, hm, hy₀, hy₁⟩ <;> omega
  · intro v t b v₁ t₁ b₁ h hs ih hv hx hy hxfree hyfree hrank hlt
    have hret := (h.retimed_step hs).retimed
    have hperm := h.perm_step hs
    refine ih (hv.step hs) (hperm.mem_iff.2 hx) (hperm.mem_iff.2 hy) ?_ ?_ ?_
      (h.lt_step hv hs hx hy hxfree hyfree hrank hlt)
    · rw [hret.block_eq, hxfree]
    · rw [hret.block_eq, hyfree]
    · rw [rank_eq hret, rank_eq hret]
      exact hrank

end Order

/-! ## Reach -/

/-- An instruction moves others back only on its own way back, and only those in front of it. -/
theorem station_le_of_settle {origin : Label} {steps : Nat} (h : Rides v t b) (hv : v.Heading)
    (hok : (settle origin steps v t b).outcome = .ok (t', b')) (hz : z ∈ v.label :: t.taken.map Prod.snd)
    (hfree : (b.get z).block = none) (hfar : v.direction = 1 ∨ v.station b v.label < v.station b z) :
    v.station b z ≤ 2 * b'.time z := by
  refine settle_induction (motive := fun v t b => v.Heading → z ∈ v.label :: t.taken.map Prod.snd →
    (b.get z).block = none → (v.direction = 1 ∨ v.station b v.label < v.station b z) →
    v.station b z ≤ 2 * b'.time z) ?_ ?_
    h hok hv hz hfree hfar
  · intro v t b h hvacant hr hv hz _ hfar
    obtain rfl : b' = b.setTime v.label v.tick := congrArg Prod.snd hr
    rw [Traveller.station_self] at hfar
    rcases h.station_last hz hvacant with ⟨hz₀, hz₁⟩ | ⟨k, hk, hz₀, hz₁⟩ <;> omega
  · intro v t b v₁ t₁ b₁ h hs ih hv hz hfree hfar
    have hrest := ih (hv.step hs) ((h.perm_step hs).mem_iff.2 hz) (((h.retimed_step hs).retimed.block_eq z).trans hfree)
    rw [Traveller.station_self] at hfar hrest
    clear ih
    cases hs with
    | leave hblock hfirst =>
      rename_i u
      have hin := bounds_of_blockAt? hblock
      have hback := hv.back hfirst
      rcases h.station_leave hz hblock hfree with ⟨rfl, hz₁⟩ | ⟨k, hk, hz₀, hz₁⟩
      · rw [Traveller.station_self] at hfar
        omega
      · have hsides := leave_sides v u
        omega
    | pass hblock hat hyields =>
      obtain ⟨-, hback, -⟩ := hv.of_yields hyields
      rcases h.station_pass hz hat with ⟨rfl, hz₀, hz₁⟩ | ⟨k, hk, hz₀, hz₁⟩
      · omega
      · simp only at hrest
        omega
    | exchange hrange hblock hat =>
      have hunit := hv.unit
      simp only at hrest
      rcases h.station_exchange hz hrange hblock hat with ⟨hz₀, hz₁⟩ | ⟨hz₀, hz₁⟩ | ⟨k, hk, hz₀, hz₁⟩ <;> omega

/-- If the instruction comes upon a block from behind, it is at the end of the block. -/
def Traveller.Beside (v : Traveller) (t : TickLine) : Prop :=
  v.leaving = false → ∀ u, t.blockAt? v.tick = some u → u.finish = v.tick

theorem Traveller.Heading.beside_step (hv : v.Heading) (hs : Step v t b v₁ t₁ b₁) : v₁.Beside t₁ := by
  -- the instruction comes from outside all blocks
  have hnext : v.leaving = false → t.blockAt? v.tick = none →
      ∀ u, t.blockAt? (v.tick + v.direction) = some u → u.finish = v.tick + v.direction := by
    intro hfirst hnone u hu
    have hin := bounds_of_blockAt? hu
    have hout := List.find?_eq_none.1 hnone u (List.mem_of_find?_eq_some hu)
    simp only [Bool.and_eq_true, decide_eq_true_eq] at hout
    have hback := hv.back hfirst
    omega
  cases hs with
  | leave =>
    rename_i u _ _
    have hleaving : (TickLine.leave v u).leaving = true := by
      unfold TickLine.leave
      split <;> rfl
    intro hfirst
    rw [hleaving] at hfirst
    cases hfirst
  | pass hblock => exact fun hfirst => hnext hfirst hblock
  | exchange _ hblock => exact fun hfirst => hnext hfirst hblock

/-- Nothing moves on by more than a tick, and an instruction that goes on stays where it first comes to. -/
theorem le_station_of_settle {origin : Label} {steps : Nat} (h : Rides v t b) (hv : v.Heading) (hbeside : v.Beside t)
    (hok : (settle origin steps v t b).outcome = .ok (t', b')) (hz : z ∈ v.label :: t.taken.map Prod.snd)
    (hfree : (b.get z).block = none) : 2 * b'.time z ≤ v.station b z + 2 ∧
      (v.direction = 1 → v.station b z ≤ v.station b v.label → 2 * b'.time z ≤ v.station b z + 1) := by
  refine settle_induction (motive := fun v t b => v.Heading → v.Beside t → z ∈ v.label :: t.taken.map Prod.snd →
    (b.get z).block = none → 2 * b'.time z ≤ v.station b z + 2 ∧
      (v.direction = 1 → v.station b z ≤ v.station b v.label → 2 * b'.time z ≤ v.station b z + 1)) ?_ ?_
    h hok hv hbeside hz hfree
  · intro v t b h hvacant hr hv _ hz _
    obtain rfl : b' = b.setTime v.label v.tick := congrArg Prod.snd hr
    have hunit := hv.unit
    rcases h.station_last hz hvacant with ⟨hz₀, hz₁⟩ | ⟨k, hk, hz₀, hz₁⟩ <;> omega
  · intro v t b v₁ t₁ b₁ h hs ih hv hbeside hz hfree
    have hrest := ih (hv.step hs) (hv.beside_step hs) ((h.perm_step hs).mem_iff.2 hz)
      (((h.retimed_step hs).retimed.block_eq z).trans hfree)
    clear ih
    rw [Traveller.station_self] at hrest ⊢
    cases hs with
    | leave hblock hfirst =>
      rename_i u
      have hin := bounds_of_blockAt? hblock
      have hend := hbeside hfirst u hblock
      have hback := hv.back hfirst
      have hsides := leave_sides v u
      have hself : v.station b v.label = 2 * v.tick - v.direction := Traveller.station_self
      rcases h.station_leave hz hblock hfree with ⟨rfl, hz₁⟩ | ⟨k, hk, hz₀, hz₁⟩ <;> omega
    | pass hblock hat hyields =>
      obtain ⟨-, hback, -⟩ := hv.of_yields hyields
      simp only at hrest
      rcases h.station_pass hz hat with ⟨rfl, hz₀, hz₁⟩ | ⟨k, hk, hz₀, hz₁⟩ <;> omega
    | exchange hrange hblock hat =>
      have hunit := hv.unit
      simp only at hrest
      rcases h.station_exchange hz hrange hblock hat with ⟨hz₀, hz₁⟩ | ⟨hz₀, hz₁⟩ | ⟨k, hk, hz₀, hz₁⟩ <;> omega

/-- All else stays. -/
theorem time_of_settle {origin : Label} {steps : Nat} (h : Rides v t b)
    (hok : (settle origin steps v t b).outcome = .ok (t', b')) (hz : z ∉ v.label :: t.taken.map Prod.snd) :
    b'.time z = b.time z := by
  have hset : ∀ {b : Board} {l : Label} {tick : Int}, z ≠ l → (b.setTime l tick).time z = b.time z := fun hne => by
    rw [Board.time, Board.time, Board.setTime, Board.get_modify_of_ne _ hne]
  refine settle_induction (motive := fun v t b => z ∉ v.label :: t.taken.map Prod.snd → b'.time z = b.time z) ?_ ?_
    h hok hz
  · intro v t b _ _ hr hz
    obtain rfl : b' = b.setTime v.label v.tick := congrArg Prod.snd hr
    exact hset fun heq => hz (heq ▸ List.mem_cons_self)
  · intro v t b v₁ t₁ b₁ h hs ih hz
    rw [ih fun hmem => hz ((h.perm_step hs).mem_iff.1 hmem)]
    cases hs with
    | leave => rfl
    | pass => rfl
    | exchange => exact hset fun heq => hz (heq ▸ List.mem_cons_self)

/-! ## One after the other -/

/-- Instructions that are still to be fitted in. -/
structure Pending (t : TickLine) (b : Board) (ls : List Label) : Prop where
  laid : t.Laid b
  nodup : ls.Nodup
  each : ∀ l ∈ ls, l < b.size ∧ (b.get l).block = none ∧ l ∉ t.taken.map Prod.snd

theorem Pending.rides {l : Label} {ls : List Label} (h : Pending t b (l :: ls)) :
    Rides ⟨l, b.time l, -1, false⟩ t b := by
  obtain ⟨hvalid, hfree, hoff⟩ := h.each l List.mem_cons_self
  exact ⟨h.laid, hvalid, hfree, hoff⟩

/-- An instruction sets out on its way back. -/
theorem Traveller.Heading.start (l : Label) (tick : Int) : Traveller.Heading ⟨l, tick, -1, false⟩ :=
  ⟨.inl rfl, fun _ => rfl⟩

/-- The line after some instructions have been fitted in. -/
structure Run (t : TickLine) (b : Board) (ks ls : List Label) (t' : TickLine) (b' : Board) : Prop where
  pending : Pending t' b' ls
  retimed : b.Retimed b'
  gains : t.Gains t' ks
  time : ∀ l ∈ ls, b'.time l = b.time l

theorem Pending.step {l : Label} {ls : List Label} (h : Pending t b (l :: ls))
    (hok : (placeFree (t, b) l).outcome = .ok (t', b')) : Run t b [l] ls t' b' := by
  obtain ⟨hvalid, hfree, hoff⟩ := h.each l List.mem_cons_self
  obtain ⟨hl, hnodup⟩ := List.nodup_cons.1 h.nodup
  obtain ⟨hlaid, hgain, hret⟩ := laid_of_settle h.laid hvalid hfree hoff hok
  have hout : ∀ m ∈ ls, m ∉ l :: t.taken.map Prod.snd := fun m hm hmem => by
    rcases List.mem_cons.1 hmem with rfl | hmem
    · exact hl hm
    · exact (h.each m (List.mem_cons_of_mem _ hm)).2.2 hmem
  refine ⟨⟨hlaid, hnodup, fun m hm => ?_⟩, hret.retimed, hgain, fun m hm => time_of_settle h.rides hok (hout m hm)⟩
  obtain ⟨hmvalid, hmfree, -⟩ := h.each m (List.mem_cons_of_mem _ hm)
  refine ⟨?_, ?_, fun hmem => hout m hm (hgain.labels.mem_iff.1 hmem)⟩
  · rw [hret.retimed.size_eq]
    exact hmvalid
  · rw [hret.retimed.block_eq]
    exact hmfree

theorem Pending.run {ls : List Label} : ∀ {ks : List Label} {t : TickLine} {b : Board}, Pending t b (ks ++ ls) →
    (ks.foldlM placeFree (t, b)).outcome = .ok (t', b') → Run t b ks ls t' b' := by
  intro ks
  induction ks with
  | nil =>
    intro t b h hok
    cases hok
    exact ⟨h, .refl _, .refl _, fun _ _ => rfl⟩
  | cons k ks ih =>
    intro t b h hok
    obtain ⟨⟨t₁, b₁⟩, hone, hrest⟩ := Attempt.foldlM_cons_eq_ok.1 hok
    have hstep := h.step hone
    have hrun := ih hstep.pending hrest
    refine ⟨hrun.pending, hstep.retimed.trans hrun.retimed, hstep.gains.trans hrun.gains, fun l hl => ?_⟩
    rw [hrun.time l hl, hstep.time l (List.mem_append_right ks hl)]

section Pair

variable {x y l : Label} {ks ls : List Label}

/-- Two instructions on the line keep their order, unless the stronger one is in front. -/
theorem Pending.lt_run {ls : List Label} : ∀ {t : TickLine} {b : Board}, Pending t b ls →
    (ls.foldlM placeFree (t, b)).outcome = .ok (t', b') → x ∈ t.taken.map Prod.snd → y ∈ t.taken.map Prod.snd →
    (b.get x).block = none → (b.get y).block = none → rank (b.get x) ≤ rank (b.get y) → b.time x < b.time y →
    b'.time x < b'.time y := by
  induction ls with
  | nil =>
    intro t b _ hok _ _ _ _ _ hlt
    cases hok
    exact hlt
  | cons k ks ih =>
    intro t b h hok hx hy hxfree hyfree hrank hlt
    obtain ⟨⟨t₁, b₁⟩, hone, hrest⟩ := Attempt.foldlM_cons_eq_ok.1 hok
    have hstep := h.step hone
    have hoff := h.rides.off
    have hne : ∀ {z : Label}, z ∈ t.taken.map Prod.snd → z ≠ k := fun hz heq => hoff (heq ▸ hz)
    refine ih hstep.pending hrest (hstep.gains.labels.mem_iff.2 (List.mem_append_right _ hx))
      (hstep.gains.labels.mem_iff.2 (List.mem_append_right _ hy)) ?_ ?_ ?_ ?_
    · rw [hstep.retimed.block_eq, hxfree]
    · rw [hstep.retimed.block_eq, hyfree]
    · rw [rank_eq hstep.retimed, rank_eq hstep.retimed]
      exact hrank
    · refine lt_of_settle h.rides (.start k _) hone (List.mem_cons_of_mem _ hx) (List.mem_cons_of_mem _ hy)
        hxfree hyfree hrank ?_
      rw [Traveller.station_of_ne (hne hx), Traveller.station_of_ne (hne hy)]
      omega

/-- An instruction does not get past one that is behind it when it sets out, if that is no stronger. -/
theorem Pending.lt_step (h : Pending t b (l :: ls)) (hok : (placeFree (t, b) l).outcome = .ok (t', b'))
    (hy : y ∈ t.taken.map Prod.snd) (hyfree : (b.get y).block = none) (hrank : rank (b.get l) ≤ rank (b.get y))
    (hlt : b.time l < b.time y) : b'.time l < b'.time y := by
  have hne : y ≠ l := fun heq => h.rides.off (heq ▸ hy)
  refine lt_of_settle h.rides (.start l _) hok List.mem_cons_self (List.mem_cons_of_mem _ hy) h.rides.free hyfree hrank
    ?_
  rw [Traveller.station_self, Traveller.station_of_ne hne]
  show 2 * b.time l - -1 < 2 * b.time y
  omega

/-- What stands at its tick or in front of it when it sets out stays in front of it, if it is no stronger. -/
theorem Pending.gt_step (h : Pending t b (l :: ls)) (hok : (placeFree (t, b) l).outcome = .ok (t', b'))
    (hy : y ∈ t.taken.map Prod.snd) (hyfree : (b.get y).block = none) (hrank : rank (b.get y) ≤ rank (b.get l))
    (hle : b.time y ≤ b.time l) : b'.time y < b'.time l := by
  have hne : y ≠ l := fun heq => h.rides.off (heq ▸ hy)
  refine lt_of_settle h.rides (.start l _) hok (List.mem_cons_of_mem _ hy) List.mem_cons_self hyfree h.rides.free hrank
    ?_
  rw [Traveller.station_self, Traveller.station_of_ne hne]
  show 2 * b.time y < 2 * b.time l - -1
  omega

/-- An instruction that is not weaker does not change on which side of its tick another one is. -/
theorem Pending.side_step (h : Pending t b (l :: ls)) (hok : (placeFree (t, b) l).outcome = .ok (t', b'))
    (hy : y ∈ t.taken.map Prod.snd) (hyfree : (b.get y).block = none) (hrank : rank (b.get y) ≤ rank (b.get l)) :
    b.time l < b'.time y ↔ b.time l < b.time y := by
  have hne : y ≠ l := fun heq => h.rides.off (heq ▸ hy)
  have hy' : y ∈ l :: t.taken.map Prod.snd := List.mem_cons_of_mem _ hy
  have hstart : Traveller.station ⟨l, b.time l, -1, false⟩ b l = 2 * b.time l + 1 := Traveller.station_self
  have hstation : Traveller.station ⟨l, b.time l, -1, false⟩ b y = 2 * b.time y := Traveller.station_of_ne hne
  have hok : (settle l (t.length.toNat * 4 + 16 + 1) ⟨l, b.time l, -1, false⟩ t b).outcome = .ok (t', b') := hok
  constructor
  · intro hlt
    by_contra hle
    cases hblock : t.blockAt? (b.time l) with
    | none =>
      -- the instruction ends up behind the other one, and at most one tick on
      have hbehind := h.gt_step hok hy hyfree hrank (not_lt.1 hle)
      have hreach : 2 * b'.time l ≤ Traveller.station ⟨l, b.time l, -1, false⟩ b l + 2 :=
        (le_station_of_settle h.rides (.start l _) (fun _ u hu => by cases hblock.symm.trans hu) hok
          List.mem_cons_self h.rides.free).1
      omega
    | some u =>
      -- the other one is in front of the block, and comes at most to its first tick
      rcases settle_cases hok with ⟨hvacant, -⟩ | ⟨v₁, t₁, b₁, hs, hok⟩
      · cases hblock.symm.trans hvacant.block
      · have hin := bounds_of_blockAt? hblock
        have hout := h.laid.outside hblock hy hyfree
        have hreach := (le_station_of_settle (h.rides.step hs) ((Traveller.Heading.start l _).step hs)
          ((Traveller.Heading.start l _).beside_step hs) hok ((h.rides.perm_step hs).mem_iff.2 hy')
          (((h.rides.retimed_step hs).retimed.block_eq y).trans hyfree)).1
        cases hs with
        | leave hblock' =>
          rcases h.rides.station_leave hy' hblock' hyfree with ⟨heq, -⟩ | ⟨k, -, hk, hk'⟩
          · exact hne heq
          · omega
        | pass hblock' => cases hblock.symm.trans hblock'
        | exchange _ hblock' => cases hblock.symm.trans hblock'
  · intro hlt
    have hfar : Traveller.station ⟨l, b.time l, -1, false⟩ b l < Traveller.station ⟨l, b.time l, -1, false⟩ b y := by
      omega
    have hkeep := station_le_of_settle h.rides (.start l _) hok hy' hyfree (.inr hfar)
    omega

theorem Pending.side_run {tick : Int} {ks : List Label} : ∀ {t : TickLine} {b : Board}, Pending t b ks →
    (ks.foldlM placeFree (t, b)).outcome = .ok (t', b') → y ∈ t.taken.map Prod.snd → (b.get y).block = none →
    (∀ l ∈ ks, b.time l = tick ∧ rank (b.get y) ≤ rank (b.get l)) → (tick < b'.time y ↔ tick < b.time y) := by
  induction ks with
  | nil =>
    intro t b _ hok _ _ _
    cases hok
    rfl
  | cons k ks ih =>
    intro t b h hok hy hyfree hks
    obtain ⟨⟨t₁, b₁⟩, hone, hrest⟩ := Attempt.foldlM_cons_eq_ok.1 hok
    obtain ⟨⟨rfl, hrank⟩, hks⟩ := List.forall_mem_cons.1 hks
    have hstep := h.step hone
    rw [← h.side_step hone hy hyfree hrank]
    refine ih hstep.pending hrest (hstep.gains.labels.mem_iff.2 (List.mem_append_right _ hy)) ?_ fun l hl => ?_
    · rw [hstep.retimed.block_eq, hyfree]
    · rw [hstep.time l hl, rank_eq hstep.retimed, rank_eq hstep.retimed]
      exact hks l hl

end Pair

theorem Pending.left {ks ls : List Label} (h : Pending t b (ks ++ ls)) : Pending t b ks :=
  ⟨h.laid, (List.nodup_append.1 h.nodup).1, fun l hl => h.each l (List.mem_append_left _ hl)⟩

theorem rank_of_isSet {i : Instruction} (h : i.isSet = true) : rank i = 0 ∧ i.opcode = 2 := by
  unfold Instruction.isSet at h
  unfold rank Instruction.opcode
  split at h
  · rename_i haction
    rw [haction]
    exact ⟨rfl, rfl⟩
  · cases h

theorem rank_nonneg {i : Instruction} (h : 2 ≤ i.opcode) : 0 ≤ rank i := by
  unfold Instruction.opcode at h
  unfold rank
  cases haction : i.action with
  | wait =>
    rw [haction] at h
    exact absurd (show 2 ≤ 0 from h) (by omega)
  | jump => exact Int.one_nonneg
  | set => exact le_rfl
  | stop => exact Int.zero_le_ofNat 2

/-- Two SETs of which one is still to be fitted in, with the latest ticks first. They come out in the order of their
ticks if the other one is still behind the tick of the first. -/
theorem Pending.lt_iff {ks ls : List Label} {x y : Label} (h : Pending t b (ks ++ x :: ls))
    (hok : ((ks ++ x :: ls).foldlM placeFree (t, b)).outcome = .ok (t', b')) (hx : (b.get x).isSet = true)
    (hks : ∀ l ∈ ks, b.time l = b.time x ∧ 2 ≤ (b.get l).opcode) (hy : y ∈ t.taken.map Prod.snd)
    (hyset : (b.get y).isSet = true) (hyfree : (b.get y).block = none) :
    b'.time x < b'.time y ↔ b.time x < b.time y := by
  rw [List.foldlM_append] at hok
  obtain ⟨⟨t₁, b₁⟩, hfirst, hok⟩ := Attempt.bind_eq_ok.1 hok
  obtain ⟨⟨t₂, b₂⟩, hone, hrest⟩ := Attempt.foldlM_cons_eq_ok.1 hok
  have hxrank := (rank_of_isSet hx).1
  have hyrank := (rank_of_isSet hyset).1
  have hrun := h.run hfirst
  have hstep := hrun.pending.step hone
  have hside : b.time x < b₁.time y ↔ b.time x < b.time y := h.left.side_run hfirst hy hyfree fun l hl =>
    ⟨(hks l hl).1, hyrank.trans_le (rank_nonneg (hks l hl).2)⟩
  have hy₁ := hrun.gains.labels.mem_iff.2 (List.mem_append_right _ hy)
  have hy₂ := hstep.gains.labels.mem_iff.2 (List.mem_append_right _ hy₁)
  have hx₂ : x ∈ t₂.taken.map Prod.snd := hstep.gains.labels.mem_iff.2 (List.mem_append_left _ List.mem_cons_self)
  have hyfree₁ : (b₁.get y).block = none := (hrun.retimed.block_eq y).trans hyfree
  have hyfree₂ : (b₂.get y).block = none := (hstep.retimed.block_eq y).trans hyfree₁
  have hxfree₂ : (b₂.get x).block = none := (hstep.retimed.block_eq x).trans hrun.pending.rides.free
  have hranks₁ : rank (b₁.get x) = rank (b₁.get y) := by rw [rank_eq hrun.retimed, rank_eq hrun.retimed, hxrank, hyrank]
  have hranks₂ : rank (b₂.get x) = rank (b₂.get y) := by rw [rank_eq hstep.retimed, rank_eq hstep.retimed, hranks₁]
  rw [← hside, ← hrun.time x List.mem_cons_self]
  constructor
  · intro hlt
    by_contra hle
    have hback := hrun.pending.gt_step hone hy₁ hyfree₁ hranks₁.ge (not_lt.1 hle)
    exact lt_asymm hlt (hstep.pending.lt_run hrest hy₂ hx₂ hyfree₂ hxfree₂ hranks₂.ge hback)
  · intro hlt
    exact hstep.pending.lt_run hrest hx₂ hy₂ hxfree₂ hyfree₂ hranks₂.le
      (hrun.pending.lt_step hone hy₁ hyfree₁ hranks₁.le hlt)

end TickLine

/-! ## The whole -/

namespace Board

/-- The instructions of blocks and those behind a tick. -/
def later (b : Board) (ls : List Label) (tick : Int) : List Label :=
  ls.filter fun l => (b.get l).block.isSome || decide (tick < b.time l)

theorem collect_later [Collation] (b : Board) (ls : List Label) (tick : Int) :
    Block.collect b (b.later ls tick) = Block.collect b ls := by
  have hnames : (b.later ls tick).filterMap (fun l => (b.get l).block) = ls.filterMap fun l => (b.get l).block := by
    rw [later, List.filterMap_filter]
    refine List.filterMap_congr fun l _ => ?_
    cases hblock : (b.get l).block with
    | none => exact ite_self none
    | some name => exact if_pos rfl
  have hmembers : ∀ name, (b.later ls tick).filter (fun l => (b.get l).block == some name) =
      ls.filter fun l => (b.get l).block == some name := fun name => by
    rw [later, List.filter_filter]
    refine List.filter_congr fun l _ => ?_
    cases hblock : (b.get l).block with
    | none => rfl
    | some n => rw [Option.isSome_some, Bool.true_or, Bool.and_true]
  simp only [Block.collect, hnames, hmembers]

/-- What is behind a tick is fitted in before everything else. -/
theorem queue_split (b : Board) (ls : List Label) (tick : Int) :
    b.queue ls = b.queue (ls.filter fun l => decide (tick < b.time l)) ++
      b.queue (ls.filter fun l => !decide (tick < b.time l)) := by
  have hswap : ∀ p : Label → Bool, (ls.filter p).filter (fun l => (b.get l).block.isNone) =
      (ls.filter fun l => (b.get l).block.isNone).filter p := fun p => by
    rw [List.filter_filter, List.filter_filter]
    exact List.filter_congr fun l _ => Bool.and_comm _ _
  simp only [queue]
  rw [hswap, hswap]
  refine Sort.sortBy_split fun k _ l _ hk hl => ?_
  rw [decide_eq_true_eq] at hk
  rw [decide_eq_false_iff_not] at hl
  rw [← Bool.not_eq_true, Instruction.before_iff, Instruction.before_iff]
  change (b.time l < b.time k ∨ _) ∧ ¬ (b.time k < b.time l ∨ (b.time k = b.time l ∧ _))
  omega

/-- The latest ticks come first; at a tick, the highest opcodes. -/
theorem pairwise_queue (b : Board) (ls : List Label) :
    (b.queue ls).Pairwise fun x y => (b.get y).before (b.get x) = true :=
  Sort.pairwise_sortBy (fun x y => Instruction.before_total (b.get y) (b.get x))
    (fun _ _ _ hxy hyz => Instruction.before_trans hyz hxy) _

section Separated

variable [Collation] {shift : String → Int} {b b₀ : Board} {length : Int} {ls : List Label} {xs : List Block}
  {t₀ : TickLine} (hs : Block.Shifted shift b (Block.collect b ls) b₀ xs)

include hs

/-- Separation leaves alone what has no block. -/
theorem get_of_free {l : Label} (hl : (b.get l).block = none) : b₀.get l = b.get l := by
  refine hs.frame l fun u hu hmem => ?_
  rw [((Block.mem_members_iff hu).1 hmem).2] at hl
  cases hl

theorem queue_later (tick : Int) :
    b₀.queue (b.later ls tick) = b₀.queue (ls.filter fun l => decide (tick < b₀.time l)) := by
  rw [queue, queue, later, List.filter_filter, List.filter_filter]
  congr 1
  refine List.filter_congr fun l _ => ?_
  rw [hs.retimed.block_eq]
  cases hl : (b.get l).block with
  | none => rw [Board.time, Board.time, get_of_free hs hl, Option.isSome_none, Bool.false_or]
  | some n => rw [Option.isNone_some, Bool.false_and, Bool.false_and]

theorem pending_of_blocks (hvalid : ∀ l ∈ ls, l < b.size) (hnodup : ls.Nodup)
    (hblocks : TickLine.placeBlocks ⟨length, xs, []⟩ b₀ = .ok t₀) : TickLine.Pending t₀ b₀ (b₀.queue ls) :=
  ⟨(laid_of_blocks hvalid hs hblocks).1, nodup_queue hnodup, fun _ hl =>
    free_of_blocks hvalid hs hblocks (mem_queue.1 hl).1 (mem_queue.1 hl).2⟩

end Separated

/-- Two free-standing SETs come out in the order of their ticks if and only if the later one, placed together with the
blocks and with what is behind the tick of the earlier one, stays behind that tick. -/
theorem place_order [Collation] {b b' : Board} {length : Int} {ls ls' : List Label} (hvalid : ∀ l ∈ ls, l < b.size)
    (hnodup : ls.Nodup) (h : (b.place length ls).outcome = .ok (ls', b')) {x y : Label} (hx : x ∈ ls) (hy : y ∈ ls)
    (hxset : (b.get x).isSet = true) (hyset : (b.get y).isSet = true) (hxfree : (b.get x).block = none)
    (hyfree : (b.get y).block = none) (hlt : b.time x < b.time y) :
    ∃ ls₁ b₁, (b.place length (b.later ls (b.time x))).outcome = .ok (ls₁, b₁) ∧
      (b'.time x < b'.time y ↔ b.time x < b₁.time y) := by
  obtain ⟨xs, b₀, t₀, t, hsep, hlow, hhigh, hblocks, hfold, -⟩ := place_eq_ok.1 h
  obtain ⟨shift, hs⟩ := Block.shifted_of_separate (Block.apart_collect hvalid hnodup) hsep
  have hpending := pending_of_blocks hs hvalid hnodup hblocks
  have hx₀ := get_of_free hs hxfree
  have hy₀ := get_of_free hs hyfree
  have hxtime : b₀.time x = b.time x := by rw [Board.time, Board.time, hx₀]
  have hytime : b₀.time y = b.time y := by rw [Board.time, Board.time, hy₀]
  -- what is behind the tick of `x` is placed first, and placed alone it comes to the same ticks
  rw [queue_split b₀ ls (b.time x)] at hfold hpending
  rw [List.foldlM_append] at hfold
  obtain ⟨⟨t₁, b₁⟩, hfirst, hrest⟩ := Attempt.bind_eq_ok.1 hfold
  refine ⟨t₁.labels, b₁, place_eq_ok.2 ⟨xs, b₀, t₀, t₁, ?_, hlow, hhigh, hblocks, ?_, rfl⟩, ?_⟩
  · rw [collect_later]
    exact hsep
  · rw [queue_later hs]
    exact hfirst
  -- of the others, those in front of `x` in the queue are SETs and ENDs at its tick
  have hrun := hpending.run hfirst
  have hxmem : x ∈ b₀.queue (ls.filter fun l => !decide (b.time x < b₀.time l)) := by
    refine mem_queue.2 ⟨List.mem_filter.2 ⟨hx, ?_⟩, by rw [hx₀, hxfree]⟩
    rw [hxtime, decide_eq_false (lt_irrefl _)]
    rfl
  have hymem : y ∈ t₁.taken.map Prod.snd := by
    refine hrun.gains.labels.mem_iff.2
      (List.mem_append_left _ (mem_queue.2 ⟨List.mem_filter.2 ⟨hy, ?_⟩, by rw [hy₀, hyfree]⟩))
    rw [hytime]
    exact decide_eq_true hlt
  have hlast : ∀ l ∈ b₀.queue (ls.filter fun l => !decide (b.time x < b₀.time l)),
      b₀.time l ≤ b.time x := fun l hl => by
    have hle := (List.mem_filter.1 (mem_queue.1 hl).1).2
    rw [Bool.not_eq_true', decide_eq_false_iff_not] at hle
    exact not_lt.1 hle
  obtain ⟨ks, ms, hsplit⟩ := List.append_of_mem hxmem
  have hsorted := pairwise_queue b₀ (ls.filter fun l => !decide (b.time x < b₀.time l))
  have hpending₁ := hrun.pending
  have htime₁ := hrun.time
  rw [hsplit] at hrest hsorted hpending₁ htime₁ hlast
  have hxtime₁ : b₁.time x = b.time x := by rw [htime₁ x (List.mem_append_right _ List.mem_cons_self), hxtime]
  rw [← hxtime₁]
  refine hpending₁.lt_iff hrest ?_ (fun l hl => ?_) hymem ?_ ?_
  · rw [hrun.retimed.isSet_eq, hx₀, hxset]
  · have hbefore := Instruction.before_iff.1 ((List.pairwise_append.1 hsorted).2.2 l hl x List.mem_cons_self)
    have hle := hlast l (List.mem_append_left _ hl)
    have hopcode : (b₁.get l).opcode = (b₀.get l).opcode := by
      rw [Instruction.opcode, Instruction.opcode, hrun.retimed.action_eq]
    have hset := (TickLine.rank_of_isSet (hx₀ ▸ hxset : (b₀.get x).isSet = true)).2
    change b₀.time x < b₀.time l ∨ (b₀.time x = b₀.time l ∧ _) at hbefore
    rw [htime₁ l (List.mem_append_left _ hl), hopcode, hxtime₁]
    omega
  · rw [hrun.retimed.isSet_eq, hy₀, hyset]
  · rw [hrun.retimed.block_eq, hy₀, hyfree]

/-- A SET in front of two instructions of one tick. -/
def pressed : Board := ⟨#[
  ⟨0, none, none, [3], .set ⟨0, 3, 0, false⟩⟩, ⟨5, none, none, [], .set ⟨1, 3, 0, false⟩⟩,
  ⟨6, none, none, [], .set ⟨2, 3, 0, false⟩⟩, ⟨6, none, none, [], .jump true 0 0 0⟩,
  ⟨9, some Block.endName, none, [], .stop⟩]⟩

/-- The JUMP takes the tick of the later SET, which comes to stand where the earlier one wants to go. -/
theorem pressed_order : ∃ ls b, (pressed.place 10 [0, 1, 2, 3, 4]).outcome = .ok (ls, b) ∧
    ls.map b.time = [0, 4, 5, 6, 9] ∧ ls = [0, 2, 1, 3, 4] ∧
    (∃ ls₁ b₁, (pressed.place 10 (pressed.later [0, 1, 2, 3, 4] 5)).outcome = .ok (ls₁, b₁) ∧
      (b.time 1 < b.time 2 ↔ 5 < b₁.time 2)) ∧
    ∃ ls₁ b₁, (pressed.place 10 (pressed.later [0, 1, 2, 3, 4] 0)).outcome = .ok (ls₁, b₁) ∧
      (b.time 0 < b.time 2 ↔ 0 < b₁.time 2) := by
  have hresult : (pressed.place 10 [0, 1, 2, 3, 4]).outcome.map (fun r => (r.1.map r.2.time, r.1)) =
      .ok ([0, 4, 5, 6, 9], [0, 2, 1, 3, 4]) := by decide +kernel
  cases h : (pressed.place 10 [0, 1, 2, 3, 4]).outcome with
  | error e =>
    rw [h] at hresult
    cases hresult
  | ok r =>
    obtain ⟨ls, b⟩ := r
    rw [h] at hresult
    have heq := Except.ok.inj hresult
    refine ⟨ls, b, rfl, congrArg Prod.fst heq, congrArg Prod.snd heq, ?_, ?_⟩
    · exact place_order (x := 1) (y := 2) (by decide) (by decide) h (by decide) (by decide) rfl rfl rfl rfl (by decide)
    · exact place_order (x := 0) (y := 2) (by decide) (by decide) h (by decide) (by decide) rfl rfl rfl rfl (by decide)

end Board

end PulseSequencer
