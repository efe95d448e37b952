import PulseSequencer.Proofs.Emission
import PulseSequencer.Proofs.Mirror

/-!
# Jumps under other labels

* `Build.Early` : all instructions stand before the END; `Build.Early.emit` : jumps keep it so;
* `Frame.Mirrored`, `Slot.Mirrored` : frames and slots that lead to the same jumps;
* `Build.Mirrored.emit`, `Build.Mirrored.foldlM_emit` : the JUMPs of one slot, and of all of them.
-/

namespace PulseSequencer

/-! ## Before the END -/

namespace Build

/-- All instructions but the END stand before it. -/
structure Early (f : Frame) (d : Draft) : Prop where
  valid : ∀ l ∈ d.list, l < d.board.size
  closes : d.board.Closes f.final f.terminator d.list

variable {f : Frame} {slots : List Slot} {s : Slot} {d d' : Draft} {b b' : Build}

namespace Early

/-- More instructions before the END. -/
theorem of_grows {names : List String} {opens jumps : List Label} (h : Early f d)
    (hgrows : Draft.Grows names opens jumps d d')
    (hnew : ∀ l ∈ d'.list, d.board.size ≤ l → (d'.board.get l).action ≠ .stop ∧
      (d'.board.get l).block ≠ some Block.endName ∧ d'.board.time l < f.terminator) : Early f d' := by
  obtain ⟨new, hlist, hsize⟩ := hgrows.list
  have hold : ∀ l ∈ d.list, (d'.board.get l).action = (d.board.get l).action ∧
      (d'.board.get l).block = (d.board.get l).block ∧ d'.board.time l = d.board.time l := fun l hl => by
    obtain ⟨rs, hcell⟩ := hgrows.alike l (h.valid l hl)
    rw [Board.time, hcell]
    exact ⟨rfl, rfl, rfl⟩
  obtain ⟨hact, hblock, htime⟩ := hold _ h.closes.mem
  refine ⟨fun l hl => ?_, hgrows.mem_list h.closes.mem, hact.trans h.closes.stop, hblock.trans h.closes.block,
    htime.trans h.closes.time, fun l hl hne => ?_⟩
  · rw [hlist, List.mem_append] at hl
    rcases hl with hl | hl
    · exact lt_of_lt_of_le (h.valid l hl) hgrows.size_le
    · exact (hsize l hl).2.1
  · by_cases hmem : l ∈ d.list
    · obtain ⟨hact, hblock, htime⟩ := hold l hmem
      rw [hact, hblock, htime]
      exact h.closes.other l hmem hne
    · rw [hlist, List.mem_append] at hl
      exact hnew l (hlist ▸ List.mem_append.2 hl) (hsize l (hl.resolve_left hmem)).1

theorem push (h : Early f d) {i : Instruction} (hset : i.isSet = true) (hblock : i.block ≠ some Block.endName)
    (htime : i.time < f.terminator) : Early f (d.push i) := by
  have hgrows : Draft.Grows i.block.toList [] [] d (d.push i) := Draft.grows_push hset (by simp)
  refine h.of_grows hgrows fun l hl hle => ?_
  have hl' : l = d.board.size := by
    rcases List.mem_append.1 hl with hl | hl
    · exact absurd (h.valid l hl) (Nat.not_lt.2 hle)
    · exact List.mem_singleton.1 hl
  rw [Board.time, hl', Draft.get_push_size]
  exact ⟨Instruction.ne_stop_of_isSet hset, hblock, htime⟩

theorem pushJump (h : Early f d) {time : Int} {g : Label} {always : Bool} {channel threshold : Binary64}
    {block : Option String} (hg : g < d.board.size) (hblock : block ≠ some Block.endName)
    (htime : time < f.terminator) : Early f (d.pushJump time g always channel threshold block) := by
  have hgrows : Draft.Grows block.toList [g] [d.board.size] d (d.pushJump time g always channel threshold block) :=
    Draft.grows_pushJump hg (by simp)
  refine h.of_grows hgrows fun l hl hle => ?_
  have hl' : l = d.board.size := by
    rcases List.mem_append.1 hl with hl | hl
    · exact absurd (h.valid l hl) (Nat.not_lt.2 hle)
    · exact List.mem_singleton.1 hl
  rw [Board.time, hl', Draft.get_pushJump_size hg]
  exact ⟨by simp, hblock, htime⟩

theorem writeId (h : Early f b.draft) (hpos : 0 < f.highTime) {tick : Int} {block : Option String} {l : Label}
    (hblock : block ≠ some Block.endName) (hw : b.writeId f tick block = .ok (l, b')) :
    Early f b'.draft ∧ l < b'.draft.board.size := by
  obtain ⟨-, hroom, rfl, rfl⟩ := writeId_eq_ok.1 hw
  have htick : tick < f.terminator := by omega
  refine ⟨(h.push rfl hblock htick).push rfl hblock hroom, ?_⟩
  rw [Draft.size_push, Draft.size_push]
  exact Nat.lt_succ_of_lt (Nat.lt_succ_self _)

theorem targetOf (h : Early f b.draft) (hpos : 0 < f.highTime) {name : String} {t : Target} {g : Label}
    (ht : (targetOf f slots name t b).outcome = .ok (g, b')) :
    Early f b'.draft ∧ g < b'.draft.board.size ∧ b.draft.board.size ≤ b'.draft.board.size := by
  cases t with
  | terminate =>
    cases ht
    exact ⟨h, h.valid _ h.closes.mem, le_refl _⟩
  | pass => cases ht
  | destination r =>
    obtain ⟨tick, -, hland⟩ := Attempt.bind_eq_ok.1 ht
    obtain ⟨⟨x, b₁⟩, hwrite, hland⟩ := Except.bind_eq_ok.1 (Attempt.ofExcept_eq_ok.1 hland)
    obtain ⟨⟨y, b₂⟩, hset, hpure⟩ := Except.bind_eq_ok.1 hland
    cases hpure
    obtain ⟨-, -, rfl⟩ := addSet_eq_ok hset
    obtain ⟨h₁, hlt⟩ := h.writeId hpos (by simp) hwrite
    obtain ⟨-, hroom, -, rfl⟩ := writeId_eq_ok.1 hwrite
    have htick : tick < f.terminator := by omega
    refine ⟨h₁.push rfl (by simp) htick, ?_, ?_⟩
    · rw [Draft.size_push]
      exact Nat.lt_succ_of_lt hlt
    · simp only [Draft.size_push]
      exact Nat.le_add_right _ 3

theorem emitRungs (hpos : 0 < f.highTime) (hname : s.jump.name ≠ Block.endName) {marker : Option Label} {total : Nat}
    {rungs : Ladder} : ∀ {tick : Int} {b : Build}, Early f b.draft → (∀ m ∈ marker, m < b.draft.board.size) →
    tick < f.terminator → (emitRungs f slots s marker total tick rungs b).outcome = .ok b' → Early f b'.draft := by
  induction rungs with
  | nil =>
    intro tick b h _ _ hok
    cases hok
    exact h
  | cons r rest ih =>
    intro tick b h hmarker htick hok
    obtain ⟨g, b₁, hg, hrest⟩ := emitRungs_cons_eq_ok hok
    have hgoal : Early f b₁.draft ∧ g < b₁.draft.board.size ∧ b.draft.board.size ≤ b₁.draft.board.size := by
      rcases hg with ⟨-, hm, rfl⟩ | hg
      · exact ⟨h, hmarker g hm, le_refl _⟩
      · exact h.targetOf hpos hg
    obtain ⟨h₁, hlt, hle⟩ := hgoal
    refine ih (h₁.pushJump hlt (by simpa using hname) htick) (fun m hm => ?_) (by omega) hrest
    have hsize : (b₁.addJump tick g (r.threshold.equal 0) s.channel r.threshold (some s.jump.name)).draft.board.size =
        b₁.draft.board.size + 1 := Board.size_addJump ..
    rw [hsize]
    exact Nat.lt_succ_of_lt (lt_of_lt_of_le (hmarker m hm) hle)

/-- The JUMPs of a slot stand before the END. -/
theorem emit (h : Early f b.draft) (hpos : 0 < f.highTime) (hname : s.jump.name ≠ Block.endName)
    (htick : s.tick < f.terminator) (hok : (emit f slots s b).outcome = .ok b') : Early f b'.draft := by
  obtain ⟨ladder, hladder, -⟩ := Attempt.bind_eq_ok.1 hok
  rcases emit_eq_ok (Attempt.ofExcept_eq_ok.1 hladder) hok with ⟨r, -, -, rfl⟩ | ⟨r, g, b₁, -, -, hg, rfl⟩ |
    ⟨-, marker, b₁, hmarker, hrungs⟩
  · exact h
  · obtain ⟨h₁, hlt, -⟩ := h.targetOf hpos hg
    exact h₁.pushJump hlt (by simp) htick
  · rcases hmarker with ⟨-, m, rfl, hw⟩ | ⟨-, rfl, rfl⟩
    · obtain ⟨h₁, hlt⟩ := h.writeId hpos (by simpa using hname) hw
      exact h₁.emitRungs hpos hname (fun m' hm' => Option.some.inj hm' ▸ hlt) htick hrungs
    · exact h.emitRungs hpos hname (by simp) htick hrungs

theorem foldlM_emit (hpos : 0 < f.highTime) {todo : List Slot} : ∀ {b : Build}, Early f b.draft →
    (∀ s ∈ todo, s.jump.name ≠ Block.endName ∧ s.tick < f.terminator) →
    (todo.foldlM (fun b s => Build.emit f slots s b) b).outcome = .ok b' → Early f b'.draft := by
  induction todo with
  | nil =>
    intro b h _ hok
    cases hok
    exact h
  | cons s todo ih =>
    intro b h htodo hok
    obtain ⟨b₁, hstep, hrest⟩ := Attempt.foldlM_cons_eq_ok.1 hok
    obtain ⟨hname, htick⟩ := htodo s List.mem_cons_self
    exact ih (h.emit hpos hname htick hstep) (fun s' hs' => htodo s' (List.mem_cons_of_mem _ hs')) hrest

/-- The pulses end before the END. -/
theorem draw {ps : List Pulse} : ∀ {d : Draft}, Early f d →
    (∀ p ∈ ps, p.interval.start < f.terminator ∧ p.interval.finish < f.terminator) → Early f (d.draw ps) := by
  induction ps with
  | nil => exact fun h _ => h
  | cons p ps ih =>
    intro d h hps
    obtain ⟨hstart, hfinish⟩ := hps p List.mem_cons_self
    have hrise : Early f (d.push p.rise) := h.push rfl (by simp [Pulse.rise]) hstart
    exact ih (hrise.push rfl (by simp [Pulse.fall]) hfinish) fun q hq => hps q (List.mem_cons_of_mem _ hq)

end Early

end Build

/-! ## Under other labels -/

namespace Draft.Mirrored

variable {φ : Label → Label} {e : Int} {S : Set Label} {d d' : Draft}

theorem push (h : d.Mirrored φ e S d') {i : Instruction} (hset : i.isSet = true) (hreached : i.reachedBy = []) :
    (d.push i).Mirrored φ e S (d'.push i) := by
  have hself : i.mirror φ e = i := by
    obtain ⟨time, block, address, reachedBy, action⟩ := i
    rw [Instruction.mirror_of_isSet hset, show reachedBy = [] from hreached]
    rfl
  obtain ⟨hmem, hsize⟩ := h.board.size_mem
  refine ⟨?_, ?_, fun l hl => ?_⟩
  · have := h.board.add (i := i) (by simp [hreached])
    rwa [hself] at this
  · rw [list_push, list_push, h.list, List.map_append, List.map_singleton, hsize]
  · rcases List.mem_append.1 hl with hl | hl
    · exact h.live l hl
    · rw [List.mem_singleton.1 hl]
      exact hmem

theorem pushJump (h : d.Mirrored φ e S d') {time : Int} {g : Label} {always : Bool} {channel threshold : Binary64}
    {block : Option String} (hg : g ∈ S) : (d.pushJump time g always channel threshold block).Mirrored φ e S
      (d'.pushJump time (φ g) always channel threshold block) := by
  obtain ⟨hmem, hsize⟩ := h.board.size_mem
  refine ⟨?_, ?_, fun l hl => ?_⟩
  · have hadd := h.board.add (i := ⟨time, block, none, [], .jump always (if always then 0 else channel)
      (if always then 0 else threshold) g⟩) (by simp)
    refine hadd.modify hg ?_ fun m hm => ?_
    · rw [show d'.board.cells.size = φ d.board.cells.size from hsize.symm]
      exact Instruction.mirror_append _
    · rcases List.mem_append.1 hm with hm | hm
      · exact hadd.closed g hg m hm
      · rw [List.mem_singleton.1 hm]
        exact hmem
  · change d'.list ++ [d'.board.size] = (d.list ++ [d.board.size]).map φ
    rw [h.list, List.map_append, List.map_singleton, hsize]
  · rcases List.mem_append.1 hl with hl | hl
    · exact h.live l hl
    · rw [List.mem_singleton.1 hl]
      exact hmem

end Draft.Mirrored

/-- Slots of jumps that are alike. -/
structure Slot.Mirrored (s s' : Slot) : Prop where
  name : s'.jump.name = s.jump.name
  tick : s'.tick = s.tick
  channel : s'.channel = s.channel
  ladder : ∀ ladder, s.jump.mergedLadder = .ok ladder → s'.jump.mergedLadder = .ok ladder

/-- Frames in which jumps lead to the same instructions, the second one with a later END. Destinations agree as long as
they leave room for a control write before the first END. -/
structure Frame.Mirrored (φ : Label → Label) (S : Set Label) (slots slots' : List Slot) (f f' : Frame) : Prop where
  register : f'.register = f.register
  highTime : f'.highTime = f.highTime
  conditions : f'.options.maxConditions = f.options.maxConditions
  state : ∀ tick, Pulse.stateAt f'.pulses tick = Pulse.stateAt f.pulses tick
  terminator : f.terminator ≤ f'.terminator
  final : f.final ∈ S ∧ f'.final = φ f.final
  destination : ∀ {jump r tick}, (Build.destinationTick f slots jump r).outcome = .ok tick →
    tick + f.highTime < f.terminator → (Build.destinationTick f' slots' jump r).outcome = .ok tick

namespace Build

/-- The same build under other labels. -/
structure Mirrored (φ : Label → Label) (e : Int) (S : Set Label) (b b' : Build) : Prop where
  draft : b.draft.Mirrored φ e S b'.draft
  nextId : b'.nextId = b.nextId

namespace Mirrored

variable {φ : Label → Label} {e : Int} {S : Set Label} {f f' : Frame} {slots slots' : List Slot} {s s' : Slot}
  {b b' b₁ : Build} {l g : Label} (h : b.Mirrored φ e S b') (hf : f.Mirrored φ S slots slots' f')

include h hf

theorem writeId {tick : Int} {block : Option String} (hw : b.writeId f tick block = .ok (l, b₁)) :
    l ∈ S ∧ ∃ b₁', b'.writeId f' tick block = .ok (φ l, b₁') ∧ b₁.Mirrored φ e S b₁' := by
  obtain ⟨hid, hroom, rfl, rfl⟩ := writeId_eq_ok.1 hw
  obtain ⟨hmem, hsize⟩ := h.draft.board.size_mem
  have hwriting : f'.writing b'.nextId tick block = f.writing b.nextId tick block := by
    rw [Frame.writing, Frame.writing, hf.register, h.nextId]
  have hclearing : f'.clearing tick block = f.clearing tick block := by
    rw [Frame.clearing, Frame.clearing, hf.register, hf.highTime]
  have hle := hf.terminator
  refine ⟨hmem, _, writeId_eq_ok.2 ⟨by rwa [h.nextId, hf.register], ?_, hsize, rfl⟩, ?_⟩
  · rw [hf.highTime]
    omega
  · rw [hwriting, hclearing, h.nextId]
    exact ⟨(h.draft.push rfl rfl).push rfl rfl, rfl⟩

theorem land {tick : Int} (hl : b.land f tick = .ok (l, b₁)) : l ∈ S ∧ tick + f.highTime < f.terminator ∧
    ∃ b₁', b'.land f' tick = .ok (φ l, b₁') ∧ b₁.Mirrored φ e S b₁' := by
  obtain ⟨⟨x, b₂⟩, hwrite, hl⟩ := Except.bind_eq_ok.1 hl
  obtain ⟨⟨y, b₃⟩, hset, hpure⟩ := Except.bind_eq_ok.1 hl
  cases hpure
  obtain ⟨hin, -, rfl⟩ := addSet_eq_ok hset
  obtain ⟨hmem, b₂', hwrite', h₂⟩ := h.writeId hf hwrite
  obtain ⟨-, hroom, -, -⟩ := writeId_eq_ok.1 hwrite
  refine ⟨hmem, hroom, _, Except.bind_eq_ok.2 ⟨_, hwrite', Except.bind_eq_ok.2 ⟨_, addSet_of_inside b₂' ?_, rfl⟩⟩, ?_⟩
  · rw [hf.state, hf.register, hin]
  · rw [hf.state, hf.register]
    exact ⟨h₂.draft.push rfl rfl, h₂.nextId⟩

theorem targetOf {name : String} {t : Target} (ht : (targetOf f slots name t b).outcome = .ok (g, b₁)) :
    g ∈ S ∧ ∃ b₁', (Build.targetOf f' slots' name t b').outcome = .ok (φ g, b₁') ∧ b₁.Mirrored φ e S b₁' := by
  cases t with
  | terminate =>
    cases ht
    exact ⟨hf.final.1, b', by rw [← hf.final.2]; rfl, h⟩
  | pass => cases ht
  | destination r =>
    obtain ⟨tick, htick, hland⟩ := Attempt.bind_eq_ok.1 ht
    obtain ⟨hmem, hroom, b₁', hland', h₁⟩ := h.land hf (Attempt.ofExcept_eq_ok.1 hland)
    exact ⟨hmem, b₁', Attempt.bind_eq_ok.2 ⟨tick, hf.destination htick hroom, Attempt.ofExcept_eq_ok.2 hland'⟩, h₁⟩

omit h in
theorem emitRungs (hs : s.Mirrored s') {marker : Option Label} {total : Nat} (hmarker : ∀ m ∈ marker, m ∈ S)
    {rungs : Ladder} : ∀ {tick : Int} {b b' : Build}, b.Mirrored φ e S b' →
    (emitRungs f slots s marker total tick rungs b).outcome = .ok b₁ →
    ∃ b₁', (Build.emitRungs f' slots' s' (marker.map φ) total tick rungs b').outcome = .ok b₁' ∧
      b₁.Mirrored φ e S b₁' := by
  induction rungs with
  | nil =>
    intro tick b b' h hok
    cases hok
    exact ⟨b', rfl, h⟩
  | cons r rest ih =>
    intro tick b b' h hok
    have hnonneg : ¬ tick < 0 := by
      intro hneg
      unfold Build.emitRungs at hok
      rw [if_pos hneg] at hok
      cases hok
    obtain ⟨g, b₂, hg, hrest⟩ := emitRungs_cons_eq_ok hok
    -- the target is the marker, or is made for this JUMP
    have hgoal : g ∈ S ∧ ∃ b₂', ((r.target = .pass ∧ marker.map φ = some (φ g) ∧ b₂' = b') ∨ (r.target ≠ .pass ∧
        (Build.targetOf f' slots' s'.jump.name r.target b').outcome = .ok (φ g, b₂'))) ∧ b₂.Mirrored φ e S b₂' := by
      rcases hg with ⟨hpass, hm, rfl⟩ | hg
      · exact ⟨hmarker g hm, b', .inl ⟨hpass, by rw [hm]; rfl, rfl⟩, h⟩
      · obtain ⟨hmem, b₂', hg', h₂⟩ := h.targetOf hf hg
        refine ⟨hmem, b₂', .inr ⟨fun hpass => ?_, by rw [hs.name]; exact hg'⟩, h₂⟩
        rw [hpass] at hg
        cases hg
    obtain ⟨hmem, b₂', hg', h₂⟩ := hgoal
    have hjump : (b₂.addJump tick g (r.threshold.equal 0) s.channel r.threshold (some s.jump.name)).Mirrored φ e S
        (b₂'.addJump tick (φ g) (r.threshold.equal 0) s'.channel r.threshold (some s'.jump.name)) := by
      rw [hs.name, hs.channel]
      exact ⟨h₂.draft.pushJump hmem, h₂.nextId⟩
    obtain ⟨b₁', hrest', h₁⟩ := ih hjump hrest
    refine ⟨b₁', ?_, h₁⟩
    rw [Build.emitRungs, if_neg hnonneg]
    rcases hg' with ⟨hpass, hm, rfl⟩ | ⟨hpass, hg'⟩
    · rw [hm] at hrest' ⊢
      simp only [hpass]
      exact Attempt.bind_eq_ok.2 ⟨_, rfl, hrest'⟩
    · simp only
      exact Attempt.bind_eq_ok.2 ⟨_, hg', hrest'⟩

/-- The JUMPs of a slot. -/
theorem emit (hs : s.Mirrored s') (hok : (emit f slots s b).outcome = .ok b₁) :
    ∃ b₁', (Build.emit f' slots' s' b').outcome = .ok b₁' ∧ b₁.Mirrored φ e S b₁' := by
  obtain ⟨ladder, hladder, hcount⟩ := Attempt.bind_eq_ok.1 hok
  rw [Attempt.ofExcept_eq_ok] at hladder
  have hlimit : ¬ f.options.maxConditions < .ofNat ladder.length := by
    intro hlt
    simp only at hcount
    rw [if_pos hlt] at hcount
    cases hcount
  have hstart : (Build.emit f' slots' s' b').outcome = _ :=
    Attempt.outcome_bind_of_ok (Attempt.outcome_ofExcept_ok (hs.ladder ladder hladder))
  rw [hstart, hf.conditions, if_neg hlimit]
  rcases emit_eq_ok hladder hok with ⟨r, rfl, hpass, rfl⟩ | ⟨r, g, b₂, rfl, hpass, hg, rfl⟩ |
    ⟨hne, marker, b₂, hmarker, hrungs⟩
  · simp only [hpass, if_true]
    exact ⟨b', Attempt.bind_eq_ok.2 ⟨_, rfl, rfl⟩, h⟩
  · obtain ⟨hmem, b₂', hg', h₂⟩ := h.targetOf hf hg
    simp only [hpass, if_false, hs.name, hs.channel, hs.tick]
    exact ⟨_, Attempt.bind_eq_ok.2 ⟨_, hg', rfl⟩, h₂.draft.pushJump hmem, h₂.nextId⟩
  · split
    · rename_i r
      exact absurd rfl (hne r)
    · rcases hmarker with ⟨hpass, m, rfl, hw⟩ | ⟨hpass, rfl, rfl⟩
      · obtain ⟨hmem, b₂', hw', h₂⟩ := h.writeId hf hw
        obtain ⟨b₁', hrungs', h₁⟩ := emitRungs hf hs (fun m' hm' => Option.some.inj hm' ▸ hmem) h₂ hrungs
        rw [if_pos (by simpa using hpass), hs.name, hs.tick]
        refine ⟨b₁', Attempt.bind_eq_ok.2 ⟨_, Attempt.ofExcept_eq_ok.2 hw', Attempt.bind_eq_ok.2 ⟨_, rfl, hrungs'⟩⟩, h₁⟩
      · obtain ⟨b₁', hrungs', h₁⟩ := emitRungs hf hs (by simp) h hrungs
        rw [if_neg (by simpa using hpass), hs.tick]
        exact ⟨b₁', Attempt.bind_eq_ok.2 ⟨_, rfl, hrungs'⟩, h₁⟩

omit h in
theorem foldlM_emit {todo todo' : List Slot} (hs : List.Forall₂ Slot.Mirrored todo todo') : ∀ {b b' : Build},
    b.Mirrored φ e S b' → (todo.foldlM (fun b s => Build.emit f slots s b) b).outcome = .ok b₁ →
    ∃ b₁', (todo'.foldlM (fun b s => Build.emit f' slots' s b) b').outcome = .ok b₁' ∧ b₁.Mirrored φ e S b₁' := by
  induction hs with
  | nil =>
    intro b b' h hok
    cases hok
    exact ⟨b', rfl, h⟩
  | cons hs _ ih =>
    intro b b' h hok
    obtain ⟨b₂, hstep, hrest⟩ := Attempt.foldlM_cons_eq_ok.1 hok
    obtain ⟨b₂', hstep', h₂⟩ := h.emit hf hs hstep
    obtain ⟨b₁', hrest', h₁⟩ := ih h₂ hrest
    exact ⟨b₁', Attempt.foldlM_cons_eq_ok.2 ⟨b₂', hstep', hrest'⟩, h₁⟩

end Mirrored

end Build

end PulseSequencer
