import PulseSequencer.Proofs.Levels
import PulseSequencer.Proofs.Slots
import PulseSequencer.Proofs.Stages
import PulseSequencer.Proofs.Tidy
import PulseSequencer.Proofs.Verdict

/-!
# Control writes and jumps without internal faults

* `Build.Seated` : where the SETs of blocks stand;
* `Build.Neat` : what every draft has while jumps are added to it;
* `Build.Later` : the JUMPs of a block are added from its last tick to its first;
* `Build.meets_emit`, `Build.meets_foldlM_emit` : jumps keep it;
* `Slot.clean_assign` : jumps at different times get ticks of their own.
-/

namespace PulseSequencer

/-! ## Control writes -/

/-- A frame whose control writes last, and whose pulses leave the control register alone. -/
structure Frame.Proper (f : Frame) : Prop where
  high : 0 < f.highTime
  long : 2 ≤ f.length
  state : ∀ tick i, Bits.bit (Pulse.stateAt f.pulses tick) i = true → Bits.bit f.register.complement i = true

/-- The SET that clears the register after the high time. -/
def Frame.clearing (f : Frame) (tick : Int) (block : Option String) : Instruction :=
  ⟨tick + f.highTime, block, none, [], .set ⟨0, f.register.mask, 0, true⟩⟩

theorem Register.bit_mask_of_stateOf {r : Register} {value : Int} {i : Nat} (h : Bits.bit (r.stateOf value) i = true) :
    Bits.bit r.mask i = true := by
  rw [stateOf, Hardware.bit_maskOf, List.any_eq_true] at h
  obtain ⟨c, hc, hi⟩ := h
  obtain ⟨x, hx, rfl⟩ := List.mem_map.1 hc
  rw [mask, Hardware.bit_maskOf, List.any_eq_true]
  exact ⟨_, List.mem_map.2 ⟨x, (List.mem_filter.1 hx).1, rfl⟩, hi⟩

namespace Build

/-- A SET in a block clears or writes the register at the start, or stands behind the tick of a jump whose block has the
SET that clears the register. -/
def Seated (f : Frame) (slots : List Slot) (d : Draft) : Prop :=
  ∀ l ∈ d.sets, ∀ n, (d.board.get l).block = some n →
    (n = Block.startName ∧ d.board.time l ≤ f.highTime) ∨
    ∃ s ∈ slots, n = s.jump.name ∧ s.tick < d.board.time l ∧
      ∃ m ∈ d.sets, (d.board.get m).block = some n ∧ d.board.time m = s.tick + 1 + f.highTime

/-- A draft that jumps can be added to without a fault. -/
structure Neat (f : Frame) (slots : List Slot) (d : Draft) : Prop
    extends Draft.Tidy f.register.mask f.register.complement d where
  linked : d.Linked
  seated : Seated f slots d

variable {f : Frame} {slots : List Slot} {d d' : Draft} {b b' : Build} {s : Slot}

/-- The SETs that were there stay seated, so only new ones are to be looked at. -/
theorem Seated.of_leading (h : Seated f slots d) (hlead : d.Leading d')
    (hnew : ∀ l ∈ d'.sets, l ∉ d.sets → ∀ n, (d'.board.get l).block = some n →
      (n = Block.startName ∧ d'.board.time l ≤ f.highTime) ∨
      ∃ s ∈ slots, n = s.jump.name ∧ s.tick < d'.board.time l ∧
        ∃ m ∈ d'.sets, (d'.board.get m).block = some n ∧ d'.board.time m = s.tick + 1 + f.highTime) :
    Seated f slots d' := by
  intro l hl n hn
  by_cases hold : l ∈ d.sets
  · obtain ⟨new, hsets⟩ := hlead.sets
    obtain ⟨htime, hblock, -⟩ := hlead.same l hold
    rw [htime]
    rcases h l hold n (hblock ▸ hn) with hstart | ⟨s, hs, hname, hlt, m, hm, hmn, hmt⟩
    · exact .inl hstart
    · obtain ⟨htime', hblock', -⟩ := hlead.same m hm
      exact .inr ⟨s, hs, hname, hlt, m, by rw [hsets]; exact List.mem_append_left _ hm, hblock'.trans hmn,
        htime'.trans hmt⟩
  · exact hnew l hl hold n hn

/-- One more free SET. -/
theorem Neat.push (h : Neat f slots d) {i : Instruction} (hset : i.isSet = true) (hfree : i.block = none)
    (hreached : i.reachedBy = []) (htime : 0 ≤ i.time)
    (hmask : ∀ j, Bits.bit i.drive.mask j = true → Bits.bit f.register.mask j = true ∨
      Bits.bit f.register.complement j = true) : Neat f slots (d.push i) := by
  have hno : ∀ n, i.block ≠ some n := by simp [hfree]
  refine ⟨h.toTidy.push h.linked htime hmask fun n hn => absurd hn (hno n),
    h.linked.push (Instruction.target?_of_isSet hset) hreached,
    h.seated.of_leading (Draft.leading_push h.linked) fun l hl hnot n hn => ?_⟩
  rw [Draft.sets_push h.linked.valid, if_pos hset, List.mem_append, List.mem_singleton] at hl
  rw [hl.resolve_left hnot, Draft.get_push_size] at hn
  exact absurd hn (hno n)

/-- One more JUMP, which its block does not have at that tick. -/
theorem Neat.addJump (h : Neat f slots b.draft) {time : Int} {g : Label} {always : Bool} {channel threshold : Binary64}
    {block : Option String} (hg : g ∈ b.draft.list)
    (hland : (b.draft.board.get g).isSet = true ∨ (b.draft.board.get g).action = .stop) (htime : 0 ≤ time)
    (hfresh : ∀ n, block = some n → ∀ l ∈ b.draft.list, (b.draft.board.get l).block = some n →
      b.draft.board.time l ≠ time) :
    Neat f slots (b.addJump time g always channel threshold block).draft := by
  refine ⟨h.toTidy.pushJump h.linked hg htime hfresh, h.linked.pushJump hg hland,
    h.seated.of_leading (Draft.leading_pushJump h.linked hg) fun l hl hnot => ?_⟩
  rw [show (b.addJump time g always channel threshold block).draft =
    b.draft.pushJump time g always channel threshold block from rfl, Draft.sets_pushJump h.linked hg] at hl
  exact absurd hl hnot

section Write

variable {tick : Int} {id : Nat} {block : Option String}
  (hblock : ∀ n, block = some n → (∀ l ∈ d.list, (d.board.get l).block ≠ some n) ∧
    (n = Block.startName ∧ tick = 0 ∨ ∃ s ∈ slots, n = s.jump.name ∧ tick = s.tick + 1))

include hblock

/-- Both SETs of a write are seated. -/
theorem Seated.write (hf : f.Proper) (hd : d.Linked) (h : Seated f slots d) :
    Seated f slots ((d.push (f.writing id tick block)).push (f.clearing tick block)) := by
  have hhigh := hf.high
  set i := f.writing id tick block with hi
  set j := f.clearing tick block with hj
  have hlinked : (d.push i).Linked := hd.push rfl rfl
  have hsets : ((d.push i).push j).sets = d.sets ++ [d.board.size] ++ [(d.push i).board.size] := by
    rw [Draft.sets_push hlinked.valid, Draft.sets_push hd.valid]
    rfl
  have hget₁ : ((d.push i).push j).board.get d.board.size = i := by
    rw [Draft.get_push_of_lt j (by simp), Draft.get_push_size]
  have hget₂ : ((d.push i).push j).board.get (d.push i).board.size = j := Draft.get_push_size _ _
  refine h.of_leading ((Draft.leading_push hd).trans (Draft.leading_push hlinked)) fun l hl hnot n hn => ?_
  -- either of the two has the block of the write
  have hnew : l = d.board.size ∨ l = (d.push i).board.size := by
    rw [hsets, List.append_assoc] at hl
    simpa using (List.mem_append.1 hl).resolve_left hnot
  obtain ⟨hblk, htime⟩ : block = some n ∧ (((d.push i).push j).board.time l = tick ∨
      ((d.push i).push j).board.time l = tick + f.highTime) := by
    rcases hnew with rfl | rfl
    · rw [hget₁] at hn
      exact ⟨hn, .inl (by rw [Board.time, hget₁]; rfl)⟩
    · rw [hget₂] at hn
      exact ⟨hn, .inr (by rw [Board.time, hget₂]; rfl)⟩
  rcases (hblock n hblk).2 with ⟨hname, rfl⟩ | ⟨s, hs, hname, rfl⟩
  · exact .inl ⟨hname, by omega⟩
  · refine .inr ⟨s, hs, hname, by omega, (d.push i).board.size, by rw [hsets]; simp, ?_, ?_⟩
    · rw [hget₂, hj]
      exact hblk
    · rw [Board.time, hget₂, hj]
      rfl

/-- A write and its clearing, at the start or behind a jump that has no block yet. -/
theorem Neat.write (hf : f.Proper) (h : Neat f slots d) (htick : 0 ≤ tick) :
    Neat f slots ((d.push (f.writing id tick block)).push (f.clearing tick block)) := by
  have hhigh := hf.high
  have hlinked : (d.push (f.writing id tick block)).Linked := h.linked.push rfl rfl
  have htidy : (d.push (f.writing id tick block)).Tidy f.register.mask f.register.complement :=
    h.toTidy.push h.linked htick (fun _ hmask => .inl hmask) fun n hn l hl hln => absurd hln ((hblock n hn).1 l hl)
  refine ⟨htidy.push hlinked (by change 0 ≤ tick + f.highTime; omega) (fun _ hmask => .inl hmask)
    fun n hn l hl hln => ?_, hlinked.push rfl rfl, h.seated.write hblock hf h.linked⟩
  -- no other instruction of the block is as late as the clearing
  rcases List.mem_append.1 hl with hl | hl
  · rw [Draft.get_push_of_lt _ (h.linked.valid l hl)] at hln
    exact absurd hln ((hblock n hn).1 l hl)
  · rw [List.mem_singleton.1 hl, Board.time, Draft.get_push_size]
    change tick ≠ tick + f.highTime
    omega

end Write

theorem addSet_of_inside (b : Build) {time value mask : Int} {block : Option String} {marker : Bool}
    (h : Bits.without value mask = 0) : b.addSet time value mask block marker = .ok (b.draft.board.size,
      { b with draft := b.draft.push ⟨time, block, none, [], .set ⟨value, mask, 0, marker⟩⟩ }) :=
  Except.bind_eq_ok.2 ⟨_, Board.addSet_eq_ok.2 ⟨h, rfl⟩, rfl⟩

theorem write_of_room (b : Build) {tick : Int} (id : Nat) (block : Option String)
    (h : ¬ f.terminator ≤ tick + f.highTime) : b.write f tick id block = .ok (b.draft.board.size,
      { b with draft := (b.draft.push (f.writing id tick block)).push (f.clearing tick block) }) := by
  have hvalue : Bits.without (f.register.stateOf (Gray.encode id)) f.register.mask = 0 :=
    Bits.without_eq_zero.2 fun _ => Register.bit_mask_of_stateOf
  have hzero : Bits.without 0 f.register.mask = 0 := Bits.without_eq_zero.2 fun i hi => by simp at hi
  unfold write
  simp only
  rw [if_neg h]
  exact Except.bind_eq_ok.2 ⟨_, addSet_of_inside b hvalue, Except.bind_eq_ok.2 ⟨_, addSet_of_inside _ hzero, rfl⟩⟩

theorem writeId_eq_ok {tick : Int} {block : Option String} {l : Label} : b.writeId f tick block = .ok (l, b') ↔
    b.nextId ≤ f.register.capacity ∧ tick + f.highTime < f.terminator ∧ l = b.draft.board.size ∧
      b' = ⟨(b.draft.push (f.writing b.nextId tick block)).push (f.clearing tick block), b.nextId + 1⟩ := by
  unfold writeId newId
  simp only
  split
  · rename_i hfull
    refine ⟨fun h => (by cases h), fun h => absurd h.1 (Nat.not_le.2 hfull)⟩
  · rename_i hid
    by_cases hroom : f.terminator ≤ tick + f.highTime
    · refine ⟨fun h => ?_, fun h => absurd h.2.1 (not_lt.2 hroom)⟩
      obtain ⟨⟨id, b₁⟩, hok, h⟩ := Except.bind_eq_ok.1 h
      cases hok
      unfold write at h
      simp only at h
      rw [if_pos hroom] at h
      cases h
    · have hwrite := write_of_room { b with nextId := b.nextId + 1 } b.nextId block hroom
      refine ⟨fun h => ?_, fun ⟨_, _, hl, hb⟩ => ?_⟩
      · obtain ⟨⟨id, b₁⟩, hok, h⟩ := Except.bind_eq_ok.1 h
        cases hok
        cases hwrite.symm.trans h
        exact ⟨Nat.not_lt.1 hid, not_le.1 hroom, rfl, rfl⟩
      · rw [hl, hb]
        exact Except.bind_eq_ok.2 ⟨_, rfl, hwrite⟩

theorem meets_writeId (hf : f.Proper) (h : Neat f slots b.draft) {tick : Int} {block : Option String} (htick : 0 ≤ tick)
    (hblock : ∀ n, block = some n → (∀ l ∈ b.draft.list, (b.draft.board.get l).block ≠ some n) ∧
      (n = Block.startName ∧ tick = 0 ∨ ∃ s ∈ slots, n = s.jump.name ∧ tick = s.tick + 1)) :
    Except.Meets (fun r => Neat f slots r.2.draft) (b.writeId f tick block) := by
  have hnew : Except.Meets (fun r => r.2.draft = b.draft) (b.newId f) := by
    unfold newId
    simp only
    split
    · exact Except.meets_error (ne_of_beq_false rfl)
    · exact Except.meets_ok rfl
  refine hnew.bind fun r _ hdraft => ?_
  rw [← hdraft] at h hblock
  change Except.Meets _ (r.2.write f tick r.1 block)
  by_cases hroom : f.terminator ≤ tick + f.highTime
  · unfold write
    simp only
    rw [if_pos hroom]
    exact Except.meets_error (ne_of_beq_false rfl)
  · rw [write_of_room r.2 r.1 block hroom]
    exact Except.meets_ok (h.write hblock hf htick)

theorem meets_land (hf : f.Proper) (h : Neat f slots b.draft) {tick : Int} (htick : 0 ≤ tick) :
    Except.Meets (fun r => Neat f slots r.2.draft) (b.land f tick) := by
  refine (meets_writeId hf h htick fun n hn => by cases hn).bind fun ⟨l, b₁⟩ _ hneat => ?_
  have hinside : Bits.without (Pulse.stateAt f.pulses tick) f.register.complement = 0 :=
    Bits.without_eq_zero.2 (hf.state tick)
  simp only
  rw [addSet_of_inside b₁ hinside]
  exact Except.meets_ok (hneat.push rfl rfl rfl htick fun _ hmask => .inr hmask)

/-! ## Jumps -/

theorem meets_targetOf (hf : f.Proper) (h : Neat f slots b.draft) {jump : String} {t : Target} (hpass : t ≠ .pass)
    (hdest : ∀ r, t = .destination r → (destinationTick f slots jump r).Meets fun tick => 0 ≤ tick) :
    (targetOf f slots jump t b).Meets fun r => Neat f slots r.2.draft := by
  cases t with
  | terminate => exact Attempt.meets_pure h
  | pass => exact absurd rfl hpass
  | destination r => exact (hdest r rfl).bind fun tick _ htick => Attempt.meets_ofExcept (meets_land hf h htick)

/-- What a rung jumps to is a SET or the END. -/
theorem lands_of_targetOf {t : Target} {g : Label} (hr : Ready f b.draft)
    (h : (targetOf f slots s.jump.name t b).outcome = .ok (g, b')) :
    Continues f [] [] [] b.draft b'.draft ∧ g ∈ b'.draft.list ∧
      ((b'.draft.board.get g).isSet = true ∨ (b'.draft.board.get g).action = .stop) := by
  obtain ⟨hcont, hg, hcase⟩ := continues_targetOf hr h
  refine ⟨hcont, hg, ?_⟩
  rcases hcase with ⟨-, rfl⟩ | ⟨q, tick', id, -, -, -, hget⟩
  · exact .inr (hr.of_continues hcont).stop
  · exact .inl (by rw [hget]; rfl)

/-- All instructions of a block are later than the tick. -/
def Later (d : Draft) (name : String) (tick : Int) : Prop :=
  ∀ l ∈ d.list, (d.board.get l).block = some name → tick < d.board.time l

theorem Later.of_continues {name : String} {tick : Int} (h : Later d name tick) (hd : d.Linked)
    (hcont : Continues f [] [] [] d d') : Later d' name tick := by
  intro l hl hn
  obtain ⟨hl, hn, htime⟩ := hcont.grows.blocked hd.valid hl hn List.not_mem_nil
  rw [htime]
  exact h l hl hn

/-- The JUMPs of a block are added from its last tick to its first. -/
theorem Later.pushJump {name : String} {tick : Int} (h : Later d name tick) (hd : d.Linked) {g : Label} {always : Bool}
    {channel threshold : Binary64} (hg : g ∈ d.list) :
    Later (d.pushJump tick g always channel threshold (some name)) name (tick - 1) := by
  intro l hl hn
  have hgrows : Draft.Grows [name] [g] [d.board.size] d (d.pushJump tick g always channel threshold (some name)) :=
    Draft.grows_pushJump (hd.valid g hg) (by simp)
  rcases List.mem_append.1 hl with hl | hl
  · obtain ⟨rs, hrs⟩ := hgrows.alike l (hd.valid l hl)
    rw [hrs] at hn
    rw [Board.time, hrs]
    have := h l hl hn
    change tick - 1 < d.board.time l
    omega
  · rw [show l = d.board.size from List.mem_singleton.1 hl, Board.time, Draft.get_pushJump_size (hd.valid g hg)]
    change tick - 1 < tick
    omega

theorem meets_emitRungs (hf : f.Proper) {marker : Option Label} {total : Nat} {rungs : Ladder} :
    ∀ {tick : Int} {b : Build}, Neat f slots b.draft → Ready f b.draft → (∀ m ∈ marker, Marks f s b.draft m) →
    ((∃ r ∈ rungs, r.target = .pass) → ∃ m, marker = some m) →
    (∀ r ∈ rungs, ∀ ref, r.target = .destination ref →
      (destinationTick f slots s.jump.name ref).Meets fun tick => 0 ≤ tick) →
    Later b.draft s.jump.name tick →
    (emitRungs f slots s marker total tick rungs b).Meets fun b' => Neat f slots b'.draft := by
  induction rungs with
  | nil => exact fun h _ _ _ _ _ => Attempt.meets_pure h
  | cons r rest ih =>
    intro tick b h hr hmarker hpass hdest hlater
    unfold emitRungs
    split
    · exact Attempt.meets_fail (ne_of_beq_false rfl)
    rename_i hnonneg
    -- what the JUMP of the rung needs of the draft it is added to
    have hstep : ∀ {g : Label} {b₁ : Build}, Neat f slots b₁.draft → Continues f [] [] [] b.draft b₁.draft →
        g ∈ b₁.draft.list → ((b₁.draft.board.get g).isSet = true ∨ (b₁.draft.board.get g).action = .stop) →
        (emitRungs f slots s marker total (tick - 1) rest
          (b₁.addJump tick g (r.threshold.equal 0) s.channel r.threshold (some s.jump.name))).Meets
            fun b' => Neat f slots b'.draft := by
      intro g b₁ h₁ hcont hg hland
      have hlater₁ := hlater.of_continues hr.linked hcont
      have hready := hr.of_continues hcont
      have hcont' : Continues f [s.jump.name] [g] [b₁.draft.board.size] b₁.draft
          (b₁.addJump tick g (r.threshold.equal 0) s.channel r.threshold (some s.jump.name)).draft :=
        Draft.continues_pushJump hready.linked hready.faithful (by simp) hg hland
      have hpass' : (∃ x ∈ rest, x.target = .pass) → ∃ m, marker = some m := by
        rintro ⟨x, hx, htarget⟩
        exact hpass ⟨x, List.mem_cons_of_mem _ hx, htarget⟩
      refine ih (h₁.addJump hg hland (by omega) fun n hn l hl hln => ?_) (hready.of_continues hcont')
        (fun m hm => ((hmarker m hm).of_grows hr.linked hcont.grows).of_grows hready.linked hcont'.grows)
        hpass' (fun x hx => hdest x (List.mem_cons_of_mem _ hx)) (hlater₁.pushJump hready.linked hg)
      exact (hlater₁ l hl (hn ▸ hln)).ne'
    simp only
    split
    · rename_i htarget
      obtain ⟨m, rfl⟩ := hpass ⟨r, List.mem_cons_self, htarget⟩
      obtain ⟨hm, id, rs, hget⟩ := hmarker m rfl
      exact hstep h (.refl hr.linked hr.faithful) hm (.inl (by rw [hget]; rfl))
    · rename_i htarget
      refine (meets_targetOf hf h htarget (hdest r List.mem_cons_self)).bind fun p hok h₁ => ?_
      obtain ⟨hcont, hg, hland⟩ := lands_of_targetOf hr hok
      exact hstep h₁ hcont hg hland

/-- A slot whose jump can be added: its tick and its name are its own, and so are the ticks it goes to. -/
structure Emittable (f : Frame) (slots : List Slot) (s : Slot) : Prop where
  mem : s ∈ slots
  nonneg : 0 ≤ s.tick
  name : s.jump.name ≠ Block.startName
  only : ∀ s' ∈ slots, s.jump.name = s'.jump.name → s'.tick = s.tick
  lands : ∀ ladder, s.jump.mergedLadder = .ok ladder → ∀ r ∈ ladder, ∀ ref, r.target = .destination ref →
    (destinationTick f slots s.jump.name ref).Meets fun tick => 0 ≤ tick

theorem meets_emit (hf : f.Proper) (h : Neat f slots b.draft) (hr : Ready f b.draft) (hs : Emittable f slots s)
    (hfresh : ∀ l ∈ b.draft.list, (b.draft.board.get l).block ≠ some s.jump.name) :
    (emit f slots s b).Meets fun b' => Neat f slots b'.draft := by
  refine Attempt.Clean.bind (Attempt.meets_ofExcept s.jump.clean_mergedLadder) fun ladder hladder => ?_
  rw [Attempt.ofExcept_eq_ok] at hladder
  have htick := hs.nonneg
  have hdest := hs.lands ladder hladder
  simp only
  split
  · exact Attempt.meets_fail (ne_of_beq_false rfl)
  split
  · rename_i r _
    split
    · exact Attempt.Clean.bind (Attempt.clean_record _) fun _ _ => Attempt.meets_pure h
    · rename_i htarget
      refine (meets_targetOf hf h htarget (hdest r List.mem_cons_self)).bind fun p hok h₁ => ?_
      obtain ⟨-, hg, hland⟩ := lands_of_targetOf hr hok
      exact Attempt.meets_pure (h₁.addJump hg hland htick fun n hn => by cases hn)
  · have hsub := @mem_of_mem_jumpRungs ladder
    have hdest : ∀ r ∈ jumpRungs ladder, ∀ ref, r.target = .destination ref →
        (destinationTick f slots s.jump.name ref).Meets fun tick => 0 ≤ tick := fun r hr => hdest r (hsub hr)
    split
    · have hwrite : Except.Meets (fun r => Neat f slots r.2.draft) (b.writeId f (s.tick + 1) (some s.jump.name)) :=
        meets_writeId hf h (by omega) fun n hn => by
          cases hn
          exact ⟨hfresh, .inr ⟨s, hs.mem, rfl, rfl⟩⟩
      refine (Attempt.meets_ofExcept hwrite).bind fun ⟨m, b₁⟩ hok h₁ => ?_
      obtain ⟨hcont, -, hmem, id, hget⟩ : Continues f [s.jump.name] [] [] b.draft b₁.draft ∧ _ :=
        continues_writeId hr.linked hr.faithful (fun n hn => List.mem_singleton.2 (Option.some.inj hn).symm)
          (Attempt.ofExcept_eq_ok.1 hok)
      refine meets_emitRungs hf h₁ (hr.of_continues hcont) ?_ (fun _ => ⟨m, rfl⟩) hdest fun l hl hn => ?_
      · rintro _ ⟨⟩
        exact ⟨hmem, id, [], hget⟩
      · -- the block has nothing but the marker and its clearing so far
        rcases hcont.grows.mem_cases hl with hold | ⟨-, hjump | hset⟩
        · obtain ⟨rs, hrs⟩ := hcont.grows.alike l (hr.linked.valid l hold)
          rw [hrs] at hn
          exact absurd hn (hfresh l hold)
        · cases hjump
        · obtain ⟨hstart, -⟩ | ⟨s', hs', heq, hlt, -⟩ := h₁.seated l (Draft.mem_sets.2 ⟨hl, hset⟩) _ hn
          · exact absurd hstart hs.name
          · rwa [hs.only s' hs' heq] at hlt
    · rename_i hno
      refine meets_emitRungs hf h hr (by simp) (fun ⟨r, hr, htarget⟩ => ?_) hdest fun l hl hn => absurd hn (hfresh l hl)
      exact absurd (List.any_eq_true.2 ⟨r, hsub hr, by simpa using htarget⟩) hno

/-- Jumps with names of their own, one after the other. -/
theorem meets_foldlM_emit (hf : f.Proper) {todo : List Slot} : ∀ {b : Build}, Neat f slots b.draft → Ready f b.draft →
    (todo.map fun s => s.jump.name).Nodup → (∀ s ∈ todo, Emittable f slots s) →
    (∀ s ∈ todo, ∀ l ∈ b.draft.list, (b.draft.board.get l).block ≠ some s.jump.name) →
    (todo.foldlM (fun b s => emit f slots s b) b).Meets fun b' => Neat f slots b'.draft := by
  induction todo with
  | nil => exact fun h _ _ _ _ => Attempt.meets_pure h
  | cons s todo ih =>
    intro b h hr hnodup htodo hfresh
    obtain ⟨hname, hnodup⟩ := List.nodup_cons.1 hnodup
    have hfresh₀ := hfresh s List.mem_cons_self
    rw [List.foldlM_cons]
    refine (meets_emit hf h hr (htodo s List.mem_cons_self) hfresh₀).bind fun b₁ hok h₁ => ?_
    obtain ⟨ladder, xs, -, hcont, -⟩ := branches_of_emit hr (fun l hl _ => hfresh₀ l hl) hok
    refine ih h₁ (hr.of_continues hcont) hnodup (fun s' hs' => htodo s' (List.mem_cons_of_mem _ hs')) ?_
    intro s' hs' l hl hblock
    have hne : s'.jump.name ∉ [s.jump.name] := fun hmem =>
      hname (List.mem_map.2 ⟨s', hs', List.mem_singleton.1 hmem⟩)
    obtain ⟨hl, hblock, -⟩ := hcont.grows.blocked hr.linked.valid hl hblock hne
    exact hfresh s' (List.mem_cons_of_mem _ hs') l hl hblock

end Build

/-! ## Slots -/

theorem Binary64.equal_eq_false_of_lt {x y : Binary64} (h : x < y ∨ y < x) : x.equal y = false := by
  rw [equal, Binary64.le, Binary64.le]
  rcases h with h | h
  · simp [show x.lt y = true from h]
  · simp [show y.lt x = true from h]

namespace Slot

/-- Slots at different times, with ticks that are told apart, find ticks of their own, or there is no room for them. -/
theorem clean_assign {slots : List Slot} (hapart : (slots.map time).Pairwise fun x y => x < y ∨ y < x)
    (hlimit : ∀ s ∈ slots, s.tick ≤ Binary64.significandLimit) : (assign slots).Clean where
  ok _ _ := trivial
  failure e h := by
    cases refusal_of_assign h with
    | room hkind =>
      rw [Failure.Foreign, hkind]
      exact ne_of_beq_false rfl
    | shared _ hshared => exact absurd (hapart.imp fun hlt => Binary64.equal_eq_false_of_lt hlt) hshared
    | endless hlarge =>
      obtain ⟨s, hs, hlarge⟩ := hlarge
      exact absurd (hlimit s hs) (not_le.2 hlarge)

end Slot

end PulseSequencer
