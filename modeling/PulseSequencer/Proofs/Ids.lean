import PulseSequencer.Proofs.Collisions
import PulseSequencer.Proofs.Emission
import PulseSequencer.Proofs.Register

/-!
# The ids of control writes

Every control write gets the next id: first the start, then, jump by jump, the pass marker and the landings. They are
the only SETs that drive the control register high.

* `Draft.Records` : the SETs `ws` of a draft carry the ids from 1 on, and no other SET drives the register high;
* `Draft.Records.of_merged`, `Draft.Records.of_inheritOutputs` : merges without collisions and the running state keep
  that;
* `Origin`, `Slot.origins` : what control writes are made for;
* `Build.Paired` : the SETs of blocks are control writes and their clearings;
* `Build.Logged`, `Build.exists_logged_emit`, `Build.exists_logged_foldlM` : the writes of a build, and those of jumps.
-/

namespace PulseSequencer

theorem forall₂_imp_of_mem {α β : Type} {P Q : α → β → Prop} {xs : List α} {ys : List β} (h : List.Forall₂ P xs ys)
    (himp : ∀ x, ∀ y ∈ ys, P x y → Q x y) : List.Forall₂ Q xs ys := by
  induction h with
  | nil => exact .nil
  | cons hxy _ ih =>
    exact .cons (himp _ _ List.mem_cons_self hxy) (ih fun x y hy => himp x y (List.mem_cons_of_mem _ hy))

/-! ## Drafts -/

/-- The SETs `ws` carry the ids from 1 on, and no other SET drives the register high. -/
structure Draft.Records (r : Register) (d : Draft) (ws : List Label) : Prop where
  mem : ∀ w ∈ ws, w ∈ d.sets
  carries : ∀ {n : Nat} {w : Label}, ws[n]? = some w → ∀ i, Bits.bit r.mask i = true →
    Bits.bit (d.board.get w).drive.mask i = true ∧
      Bits.bit (d.board.get w).drive.value i = Bits.bit (r.stateOf (Gray.encode (n + 1 : Nat))) i
  other : ∀ l ∈ d.sets, l ∉ ws → ∀ i, Bits.bit r.mask i = true → Bits.bit (d.board.get l).drive.value i = false

namespace Draft.Records

variable {r : Register} {d d' : Draft} {ws : List Label}

/-- Control bits that stay as they are keep the record. -/
theorem of_same (h : d.Records r ws) (hsets : ∀ l, l ∈ d'.sets ↔ l ∈ d.sets)
    (hdrive : ∀ l ∈ d.sets, ∀ i, Bits.bit r.mask i = true →
      Bits.bit (d'.board.get l).drive.mask i = Bits.bit (d.board.get l).drive.mask i ∧
      Bits.bit (d'.board.get l).drive.value i = Bits.bit (d.board.get l).drive.value i) : d'.Records r ws where
  mem w hw := (hsets w).2 (h.mem w hw)
  carries hw i hi := by
    obtain ⟨hmask, hvalue⟩ := hdrive _ (h.mem _ (List.mem_of_getElem? hw)) i hi
    rw [hmask, hvalue]
    exact h.carries hw i hi
  other l hl hnot i hi := by
    rw [(hdrive l ((hsets l).1 hl) i hi).2]
    exact h.other l ((hsets l).1 hl) hnot i hi

theorem of_leading (h : d.Records r ws) (hlead : d.Leading d')
    (hnew : ∀ l ∈ d'.sets, l ∉ d.sets → ∀ i, Bits.bit r.mask i = true →
      Bits.bit (d'.board.get l).drive.value i = false) : d'.Records r ws := by
  obtain ⟨new, hsets⟩ := hlead.sets
  refine ⟨fun w hw => ?_, fun hw i hi => ?_, fun l hl hnot i hi => ?_⟩
  · rw [hsets]
    exact List.mem_append_left _ (h.mem w hw)
  · rw [(hlead.same _ (h.mem _ (List.mem_of_getElem? hw))).2.2]
    exact h.carries hw i hi
  · by_cases hold : l ∈ d.sets
    · rw [(hlead.same l hold).2.2]
      exact h.other l hold hnot i hi
    · exact hnew l hl hold i hi

/-- One more SET, which leaves the register alone or clears it. -/
theorem push (h : d.Records r ws) (hd : d.Linked) {i : Instruction}
    (hi : ∀ j, Bits.bit r.mask j = true → Bits.bit i.drive.value j = false) : (d.push i).Records r ws := by
  refine h.of_leading (leading_push hd) fun l hl hnot => ?_
  rw [sets_push hd.valid, List.mem_append] at hl
  have hnew := hl.resolve_left hnot
  split at hnew
  · rw [List.mem_singleton.1 hnew, get_push_size]
    exact hi
  · cases hnew

/-- One more SET, which writes the next id. -/
theorem push_write (h : d.Records r ws) (hd : d.Linked) {i : Instruction} (hset : i.isSet = true)
    (hi : ∀ j, Bits.bit r.mask j = true → Bits.bit i.drive.mask j = true ∧
      Bits.bit i.drive.value j = Bits.bit (r.stateOf (Gray.encode (ws.length + 1 : Nat))) j) :
    (d.push i).Records r (ws ++ [d.board.size]) := by
  have hsets : (d.push i).sets = d.sets ++ [d.board.size] := by rw [sets_push hd.valid, if_pos hset]
  have hlead : d.Leading (d.push i) := leading_push hd
  refine ⟨fun w hw => ?_, fun {n w} hw j hj => ?_, fun l hl hnot j hj => ?_⟩
  · rw [hsets]
    rcases List.mem_append.1 hw with hw | hw
    · exact List.mem_append_left _ (h.mem w hw)
    · exact List.mem_append_right _ hw
  · rcases lt_or_ge n ws.length with hn | hn
    · rw [List.getElem?_append_left hn] at hw
      rw [(hlead.same w (h.mem w (List.mem_of_getElem? hw))).2.2]
      exact h.carries hw j hj
    · rw [List.getElem?_append_right hn, List.getElem?_singleton] at hw
      split at hw
      · cases hw
        rw [get_push_size, show n = ws.length by omega]
        exact hi j hj
      · cases hw
  · rw [List.mem_append, not_or] at hnot
    rw [hsets, List.mem_append] at hl
    have hold := hl.resolve_right hnot.2
    rw [(hlead.same l hold).2.2]
    exact h.other l hold hnot.1 j hj

theorem pushJump (h : d.Records r ws) (hd : d.Linked) {time : Int} {g : Label} {always : Bool}
    {channel threshold : Binary64} {block : Option String} (hg : g ∈ d.list) :
    (d.pushJump time g always channel threshold block).Records r ws := by
  refine h.of_leading (leading_pushJump hd hg) fun l hl hnot => ?_
  rw [sets_pushJump hd hg] at hl
  exact absurd hl hnot

/-- In a merge without collisions the control writes stay apart, and their unions carry their ids. -/
theorem of_merged {us : List Label} {heir : Label → Label} (h : d.Records r ws) (hd : d.Linked) (hin : d.SetsInside)
    (hm : d.Merged d' us heir) (hagree : ∀ g ∈ d.gathered, d.board.Agree g) : d'.Records r (ws.map heir) := by
  refine ⟨fun w hw => ?_, fun {n w} hw i hi => ?_, fun u hu hnot i hi => ?_⟩
  · obtain ⟨x, hx, rfl⟩ := List.mem_map.1 hw
    exact (hm.mem_sets_iff hd hin).2 ⟨x, h.mem x hx, rfl⟩
  · rw [List.getElem?_map, Option.map_eq_some_iff] at hw
    obtain ⟨x, hx, rfl⟩ := hw
    have hxs := h.mem x (List.mem_of_getElem? hx)
    obtain ⟨hmask, hvalue⟩ := h.carries hx i hi
    exact ⟨hm.mask_heir hd hin hxs hmask, (hm.value_heir hd hin hagree hxs hmask).trans hvalue⟩
  · rw [← Bool.not_eq_true]
    intro hbit
    obtain ⟨l, hl, rfl, hlbit⟩ := hm.exists_value hd hin hu hbit
    rw [h.other l hl (fun hmem => hnot (List.mem_map_of_mem hmem)) i hi] at hlbit
    cases hlbit

theorem of_inheritOutputs (h : d.Records r ws) (hd : d.Linked) (hi : d.inheritOutputs r.complement = .ok d') :
    d'.Records r ws := by
  obtain ⟨hlist, hred, hdrive⟩ := drives_of_inheritOutputs (R := fun l e => ∀ i, Bits.bit r.mask i = true →
    Bits.bit e.mask i = Bits.bit (d.board.get l).drive.mask i ∧
      Bits.bit e.value i = Bits.bit (d.board.get l).drive.value i) hd (fun l _ i _ => ⟨rfl, rfl⟩)
    (fun l _ e e' he i hi => by
      rw [Board.bit_mask_inheritDrive, Board.bit_value_inheritDrive, Register.bit_complement, hi]
      simpa using he i hi) hi
  have hsets : ∀ l, l ∈ d'.sets ↔ l ∈ d.sets := fun l => by
    rw [mem_sets, mem_sets, hlist, mem_sorted, hred.sameLinks.isSet]
  exact h.of_same hsets fun l hl => hdrive l ((hsets l).2 hl)

end Draft.Records

/-! ## Builds -/

/-- What a control write is made for. -/
inductive Origin where
  | start
  /-- The marker behind the JUMPs of a slot. -/
  | pass (sl : Slot)
  /-- The landing of a rung of a slot. -/
  | landing (sl : Slot) (r : Rung)

def Rung.origins (sl : Slot) (r : Rung) : List Origin :=
  match r.target with
  | .destination _ => [.landing sl r]
  | _ => []

/-- The control writes of a jump, in order. -/
def Slot.origins (sl : Slot) : List Origin :=
  match sl.jump.mergedLadder with
  | .error _ => []
  | .ok [r] => r.origins sl
  | .ok ladder =>
    (if ladder.any fun r => r.target == .pass then [.pass sl] else []) ++
      (Build.jumpRungs ladder).flatMap (Rung.origins sl)

theorem Slot.origins_of_ne {sl : Slot} {ladder : Ladder} (h : sl.jump.mergedLadder = .ok ladder)
    (hne : ∀ r, ladder ≠ [r]) :
    sl.origins = (if ladder.any fun r => r.target == .pass then [.pass sl] else []) ++
      (Build.jumpRungs ladder).flatMap (Rung.origins sl) := by
  rw [Slot.origins, h]
  split
  · rename_i heq
    cases heq
  · rename_i r heq
    exact absurd (Except.ok.inj heq) (hne r)
  · rename_i heq
    cases heq
    rfl

namespace Build

/-- The SET `w` of the draft is what it has been made for. -/
def Wrote (f : Frame) (slots : List Slot) (d : Draft) : Origin → Label → Prop
  | .start, w => (d.board.get w).block = some Block.startName ∧ d.board.time w = 0
  | .pass sl, w => (d.board.get w).block = some sl.jump.name ∧ d.board.time w = sl.tick + 1
  | .landing sl r, w => ∃ x ∈ d.list, ∃ ref, r.target = .destination ref ∧
      (destinationTick f slots sl.jump.name ref).outcome = .ok (d.board.time w) ∧
      (d.board.get x).action = .jump (r.threshold.equal 0) (if r.threshold.equal 0 then 0 else sl.channel)
        (if r.threshold.equal 0 then 0 else r.threshold) w

/-- The SETs of a block are a control write, at the tick `base` of the block, and its clearing. -/
def Paired (f : Frame) (base : String → Int) (d : Draft) : Prop :=
  ∀ l ∈ d.sets, ∀ n, (d.board.get l).block = some n →
    (d.board.time l = base n ∨ d.board.time l = base n + f.highTime) ∧
      ∃ m ∈ d.sets, (d.board.get m).block = some n ∧ d.board.time m = base n + f.highTime

/-- The ids up to now are those of the SETs `ws`. -/
structure Logged (f : Frame) (base : String → Int) (b : Build) (ws : List Label) : Prop where
  records : b.draft.Records f.register ws
  paired : Paired f base b.draft
  linked : b.draft.Linked
  next : b.nextId = ws.length + 1
  room : ws.length ≤ f.register.capacity

variable {f : Frame} {base : String → Int} {slots : List Slot} {s : Slot} {b b' : Build} {ws : List Label}

namespace Paired

variable {d d' : Draft}

theorem of_leading (h : Paired f base d) (hlead : d.Leading d')
    (hnew : ∀ l ∈ d'.sets, l ∉ d.sets → ∀ n, (d'.board.get l).block = some n →
      (d'.board.time l = base n ∨ d'.board.time l = base n + f.highTime) ∧
        ∃ m ∈ d'.sets, (d'.board.get m).block = some n ∧ d'.board.time m = base n + f.highTime) : Paired f base d' := by
  intro l hl n hn
  obtain ⟨new, hsets⟩ := hlead.sets
  by_cases hold : l ∈ d.sets
  swap
  · exact hnew l hl hold n hn
  obtain ⟨htime, hblock, -⟩ := hlead.same l hold
  obtain ⟨hat, m, hm, hmn, hmt⟩ := h l hold n (hblock ▸ hn)
  obtain ⟨htime', hblock', -⟩ := hlead.same m hm
  exact ⟨by rwa [htime], m, by rw [hsets]; exact List.mem_append_left _ hm, hblock'.trans hmn, htime'.trans hmt⟩

/-- One more free SET. -/
theorem push (h : Paired f base d) (hd : d.Linked) {i : Instruction} (hfree : i.block = none) :
    Paired f base (d.push i) := by
  refine h.of_leading (Draft.leading_push hd) fun l hl hnot n hn => ?_
  rw [Draft.sets_push hd.valid, List.mem_append] at hl
  have hnew := hl.resolve_left hnot
  split at hnew
  · rw [List.mem_singleton.1 hnew, Draft.get_push_size, hfree] at hn
    cases hn
  · cases hnew

theorem pushJump (h : Paired f base d) (hd : d.Linked) {time : Int} {g : Label} {always : Bool}
    {channel threshold : Binary64} {block : Option String} (hg : g ∈ d.list) :
    Paired f base (d.pushJump time g always channel threshold block) := by
  refine h.of_leading (Draft.leading_pushJump hd hg) fun l hl hnot => ?_
  rw [Draft.sets_pushJump hd hg] at hl
  exact absurd hl hnot

theorem write (h : Paired f base d) (hd : d.Linked) {tick : Int} (id : Nat) {block : Option String}
    (hblock : ∀ n, block = some n → base n = tick) :
    Paired f base ((d.push (f.writing id tick block)).push (f.clearing tick block)) := by
  set i := f.writing id tick block with hi
  set j := f.clearing tick block with hj
  have hd₁ : (d.push i).Linked := hd.push rfl rfl
  have hsets : ((d.push i).push j).sets = d.sets ++ [d.board.size] ++ [(d.push i).board.size] := by
    rw [Draft.sets_push hd₁.valid, Draft.sets_push hd.valid]
    rfl
  have hget₁ : ((d.push i).push j).board.get d.board.size = i := by
    rw [Draft.get_push_of_lt j (by simp), Draft.get_push_size]
  have hget₂ : ((d.push i).push j).board.get (d.push i).board.size = j := Draft.get_push_size _ _
  refine h.of_leading ((Draft.leading_push hd).trans (Draft.leading_push hd₁)) fun l hl hnot n hn => ?_
  have hl' : l = d.board.size ∨ l = (d.push i).board.size := by
    rw [hsets, List.mem_append, List.mem_append, List.mem_singleton, List.mem_singleton] at hl
    tauto
  have hblk : block = some n := by
    rcases hl' with rfl | rfl
    · rw [hget₁] at hn
      exact hn
    · rw [hget₂] at hn
      exact hn
  have hbase := hblock n hblk
  refine ⟨?_, (d.push i).board.size, by rw [hsets]; simp, by rw [hget₂]; exact hblk, ?_⟩
  · rcases hl' with rfl | rfl
    · rw [Board.time, hget₁]
      exact .inl hbase.symm
    · rw [Board.time, hget₂, hbase]
      exact .inr rfl
  · rw [Board.time, hget₂, hbase]
    rfl

theorem draw {ps : List Pulse} : ∀ {d : Draft}, Paired f base d → d.Linked → Paired f base (d.draw ps) := by
  induction ps with
  | nil => exact fun h _ => h
  | cons p ps ih =>
    intro d h hd
    have hlinked : (d.push p.rise).Linked := hd.push rfl rfl
    exact ih ((h.push hd rfl).push hlinked rfl) (hlinked.push rfl rfl)

theorem of_descends {heir : Label → Label} (h : Paired f base d) (hdesc : d.Descends d' heir) : Paired f base d' := by
  intro l hl n hn
  obtain ⟨hl, hset⟩ := Draft.mem_sets.1 hl
  obtain ⟨x, hx, rfl, hxn⟩ := hdesc.blocked l hl n hn
  rw [hdesc.isSet x hx] at hset
  rw [hdesc.time x hx]
  obtain ⟨hat, m, hm, hmn, hmt⟩ := h x (Draft.mem_sets.2 ⟨hx, hset⟩) n hxn
  obtain ⟨hm, hmset⟩ := Draft.mem_sets.1 hm
  exact ⟨hat, heir m, Draft.mem_sets.2 ⟨hdesc.mem m hm, by rw [hdesc.isSet m hm, hmset]⟩, hdesc.block m hm n hmn,
    by rw [hdesc.time m hm, hmt]⟩

end Paired

theorem Wrote.of_grows {d d' : Draft} {names : List String} {opens jumps : List Label} {og : Origin} {w : Label}
    (h : Wrote f slots d og w) (hd : d.Linked) (hw : w ∈ d.list) (hgrows : Draft.Grows names opens jumps d d') :
    Wrote f slots d' og w := by
  have hsame : ∀ l ∈ d.list, ∃ rs, d'.board.get l = { d.board.get l with reachedBy := rs } := fun l hl =>
    hgrows.alike l (hd.valid l hl)
  obtain ⟨rs, hcell⟩ := hsame w hw
  cases og with
  | start | pass =>
    obtain ⟨hblock, htime⟩ := h
    exact ⟨by rw [hcell]; exact hblock, by rw [Board.time, hcell]; exact htime⟩
  | landing sl r =>
    obtain ⟨x, hx, ref, htarget, htick, hact⟩ := h
    obtain ⟨rs', hcell'⟩ := hsame x hx
    exact ⟨x, hgrows.mem_list hx, ref, htarget, by rw [Board.time, hcell]; exact htick, by rw [hcell']; exact hact⟩

theorem Logged.writeId (h : Logged f base b ws) {tick : Int} {block : Option String} {g : Label}
    (hblock : ∀ n, block = some n → base n = tick) (hw : b.writeId f tick block = .ok (g, b')) :
    Logged f base b' (ws ++ [g]) ∧ b'.draft.board.get g = f.writing b.nextId tick block := by
  obtain ⟨hroom, -, rfl, rfl⟩ := writeId_eq_ok.1 hw
  have hlinked : (b.draft.push (f.writing b.nextId tick block)).Linked := h.linked.push rfl rfl
  have hnext := h.next
  refine ⟨⟨?_, h.paired.write h.linked b.nextId hblock, hlinked.push rfl rfl, ?_, ?_⟩, ?_⟩
  · apply Draft.Records.push _ hlinked (i := f.clearing tick block) (fun j _ => Bits.bit_zero j)
    apply h.records.push_write h.linked (i := f.writing b.nextId tick block) rfl
    intro j hj
    exact ⟨hj, by rw [← hnext]; rfl⟩
  · simp only [List.length_append, List.length_singleton, hnext]
  · rw [List.length_append, List.length_singleton, ← hnext]
    exact hroom
  · rw [Draft.get_push_of_lt _ (by rw [Draft.size_push]; exact Nat.lt_succ_self _), Draft.get_push_size]

theorem Logged.addJump (h : Logged f base b ws) {time : Int} {g : Label} {always : Bool} {channel threshold : Binary64}
    {block : Option String} (hg : g ∈ b.draft.list)
    (hland : (b.draft.board.get g).isSet = true ∨ (b.draft.board.get g).action = .stop) :
    Logged f base (b.addJump time g always channel threshold block) ws :=
  ⟨h.records.pushJump h.linked hg, h.paired.pushJump h.linked hg, h.linked.pushJump hg hland, h.next, h.room⟩

/-- The control writes of a target. -/
def writesOf (t : Target) (g : Label) : List Label :=
  match t with
  | .destination _ => [g]
  | _ => []

theorem Logged.targetOf (h : Logged f base b ws) {name : String} {t : Target} {g : Label}
    (ht : (targetOf f slots name t b).outcome = .ok (g, b')) :
    Logged f base b' (ws ++ writesOf t g) ∧ ∀ ref, t = .destination ref →
      (destinationTick f slots name ref).outcome = .ok (b'.draft.board.time g) := by
  cases t with
  | terminate =>
    cases ht
    exact ⟨by simpa [writesOf] using h, by simp⟩
  | pass => cases ht
  | destination r =>
    obtain ⟨tick, htick, hland⟩ := Attempt.bind_eq_ok.1 ht
    obtain ⟨⟨x, b₁⟩, hwrite, hland⟩ := Except.bind_eq_ok.1 (Attempt.ofExcept_eq_ok.1 hland)
    obtain ⟨⟨y, b₂⟩, hset, hpure⟩ := Except.bind_eq_ok.1 hland
    cases hpure
    obtain ⟨hin, -, rfl⟩ := addSet_eq_ok hset
    obtain ⟨hlogged, hcell⟩ := h.writeId (fun _ hn => by cases hn) hwrite
    have hmem : g ∈ b₁.draft.list :=
      (Draft.mem_sets.1 (hlogged.records.mem g (List.mem_append_right _ List.mem_cons_self))).1
    refine ⟨⟨?_, hlogged.paired.push hlogged.linked rfl, hlogged.linked.push rfl rfl, hlogged.next, hlogged.room⟩, ?_⟩
    · -- the state of the tick is outside the register
      refine hlogged.records.push hlogged.linked fun j hj => ?_
      rw [← Bool.not_eq_true]
      intro hbit
      have := Bits.without_eq_zero.1 hin j hbit
      rw [Register.bit_complement, hj] at this
      simp at this
    · rintro _ ⟨⟩
      rw [htick, Board.time, Draft.get_push_of_lt _ (hlogged.linked.valid g hmem), hcell]
      rfl

/-- The landings of a row of JUMPs. -/
theorem exists_logged_emitRungs {marker : Option Label} {total : Nat} {rungs : Ladder} : ∀ {tick : Int} {b b' : Build}
    {ws : List Label}, Ready f b.draft → (∀ m ∈ marker, Marks f s b.draft m) → Logged f base b ws →
    (emitRungs f slots s marker total tick rungs b).outcome = .ok b' →
    ∃ new, Logged f base b' (ws ++ new) ∧
      List.Forall₂ (Wrote f slots b'.draft) (rungs.flatMap (Rung.origins s)) new := by
  induction rungs with
  | nil =>
    intro tick b b' ws _ _ hlog h
    cases h
    exact ⟨[], by rwa [List.append_nil], .nil⟩
  | cons r rest ih =>
    intro tick b b' ws hr hmarker hlog h
    obtain ⟨g, b₁, hg, hrest⟩ := emitRungs_cons_eq_ok h
    obtain ⟨hcont, hmem, hland, -, -⟩ := goal_of_rung hr hmarker hg
    have hready := hr.of_continues hcont
    have hjump : Continues f [s.jump.name] [g] [b₁.draft.board.size] b₁.draft
        (b₁.addJump tick g (r.threshold.equal 0) s.channel r.threshold (some s.jump.name)).draft :=
      Draft.continues_pushJump hready.linked hready.faithful (by simp) hmem hland
    have hlog₁ : Logged f base b₁ (ws ++ writesOf r.target g) ∧ ∀ ref, r.target = .destination ref →
        (destinationTick f slots s.jump.name ref).outcome = .ok (b₁.draft.board.time g) := by
      rcases hg with ⟨hpass, -, rfl⟩ | hg
      · rw [hpass]
        exact ⟨by simpa [writesOf] using hlog, by simp⟩
      · exact hlog.targetOf hg
    have hready₂ := hready.of_continues hjump
    have hmarker₂ : ∀ m ∈ marker, Marks f s
        (b₁.addJump tick g (r.threshold.equal 0) s.channel r.threshold (some s.jump.name)).draft m := fun m hm =>
      ((hmarker m hm).of_grows hr.linked hcont.grows).of_grows hready.linked hjump.grows
    obtain ⟨new, hlogged, hwrote⟩ := ih hready₂ hmarker₂ (hlog₁.1.addJump hmem hland) hrest
    obtain ⟨xs, hcont', -⟩ := row_of_emitRungs hready₂ hmarker₂ hrest
    refine ⟨writesOf r.target g ++ new, by rwa [← List.append_assoc], ?_⟩
    rw [List.flatMap_cons]
    refine List.rel_append ?_ hwrote
    -- the JUMP of this rung goes to the landing made for it
    unfold Rung.origins writesOf
    split
    · rename_i ref htarget
      have hwrote : Wrote f slots
          (b₁.addJump tick g (r.threshold.equal 0) s.channel r.threshold (some s.jump.name)).draft
          (.landing s r) g := by
        refine ⟨b₁.draft.board.size, List.mem_append_right _ List.mem_cons_self, ref, htarget, ?_, ?_⟩
        · rw [hlog₁.2 ref htarget]
          exact congrArg Except.ok
            (congrArg Instruction.time (Draft.get_pushJump_target (hready.linked.valid g hmem))).symm
        · exact congrArg Instruction.action (Draft.get_pushJump_size (hready.linked.valid g hmem))
      exact .cons (hwrote.of_grows hready₂.linked (hjump.grows.mem_list hmem) hcont'.grows) .nil
    · exact .nil

/-- The control writes of a jump. -/
theorem exists_logged_emit (hr : Ready f b.draft) (hbase : base s.jump.name = s.tick + 1) (hlog : Logged f base b ws)
    (h : (emit f slots s b).outcome = .ok b') :
    ∃ new, Logged f base b' (ws ++ new) ∧ List.Forall₂ (Wrote f slots b'.draft) s.origins new := by
  obtain ⟨ladder, hladder, -⟩ := Attempt.bind_eq_ok.1 h
  rw [Attempt.ofExcept_eq_ok] at hladder
  rcases emit_eq_ok hladder h with ⟨r, rfl, htarget, rfl⟩ | ⟨r, g, b₁, rfl, htarget, hg, rfl⟩ |
    ⟨hne, marker, b₁, hmarker, hrungs⟩
  · refine ⟨[], by rwa [List.append_nil], ?_⟩
    rw [Slot.origins, hladder]
    simp only [Rung.origins, htarget]
    exact .nil
  · have hno : ∀ m ∈ (none : Option Label), Marks f s b.draft m := by simp
    obtain ⟨hcont, hmem, hland, -, -⟩ := goal_of_rung hr hno (.inr hg)
    have hready := hr.of_continues hcont
    obtain ⟨hlog₁, htick⟩ := hlog.targetOf hg
    refine ⟨writesOf r.target g, hlog₁.addJump hmem hland, ?_⟩
    have hzero : r.threshold.equal 0 = true := by
      have hgrounded := Ladder.grounded_of_mergedLadder hladder
      obtain ⟨e, he, hthreshold⟩ := hgrounded.last
      cases he
      exact (hgrounded.equal_zero_iff List.mem_cons_self).2 hthreshold
    rw [Slot.origins, hladder]
    simp only
    unfold Rung.origins writesOf
    split
    · rename_i ref htarget
      refine .cons ⟨b₁.draft.board.size, List.mem_append_right _ List.mem_cons_self, ref, htarget, ?_, ?_⟩ .nil
      · rw [htick ref htarget]
        exact congrArg Except.ok
          (congrArg Instruction.time (Draft.get_pushJump_target (hready.linked.valid g hmem))).symm
      · rw [hzero]
        exact congrArg Instruction.action (Draft.get_pushJump_size (hready.linked.valid g hmem))
    · exact .nil
  · have hany : (ladder.any fun r => r.target == .pass) = true ↔ ∃ r ∈ ladder, r.target = .pass := by
      rw [List.any_eq_true]
      simp only [beq_iff_eq]
    rw [Slot.origins_of_ne hladder hne]
    rcases hmarker with ⟨hpass, m, rfl, hwrite⟩ | ⟨hpass, rfl, rfl⟩
    · have hname : ∀ n, some s.jump.name = some n → n ∈ [s.jump.name] := fun n hn =>
        List.mem_singleton.2 (Option.some.inj hn).symm
      obtain ⟨hcont, -, hmem, -⟩ := continues_writeId hr.linked hr.faithful hname hwrite
      obtain ⟨hlog₁, hcell⟩ := hlog.writeId (fun n hn => Option.some.inj hn ▸ hbase) hwrite
      have hready := hr.of_continues hcont
      have hmarks : ∀ l ∈ some m, Marks f s b₁.draft l := by
        rintro _ ⟨⟩
        exact ⟨hmem, b.nextId, [], hcell⟩
      obtain ⟨new, hlogged, hwrote⟩ := exists_logged_emitRungs hready hmarks hlog₁ hrungs
      obtain ⟨xs, hcont', -⟩ := row_of_emitRungs hready hmarks hrungs
      refine ⟨m :: new, by rwa [List.append_cons], ?_⟩
      rw [if_pos (hany.2 hpass)]
      have hmarker : Wrote f slots b₁.draft (.pass s) m := ⟨by rw [hcell]; rfl, by rw [Board.time, hcell]; rfl⟩
      exact .cons (hmarker.of_grows hready.linked hmem hcont'.grows) hwrote
    · rw [if_neg (fun h => hpass (hany.1 h)), List.nil_append]
      exact exists_logged_emitRungs hr (by simp) hlog hrungs

/-- The control writes of jumps with names of their own, one after the other. -/
theorem exists_logged_foldlM {todo : List Slot} : ∀ {b b' : Build} {ws : List Label}, Ready f b.draft →
    (todo.map fun s => s.jump.name).Nodup →
    (∀ s ∈ todo, ∀ l ∈ b.draft.list, (b.draft.board.get l).target? ≠ none →
      (b.draft.board.get l).block ≠ some s.jump.name) →
    (∀ s ∈ todo, base s.jump.name = s.tick + 1) → Logged f base b ws →
    (todo.foldlM (fun b s => emit f slots s b) b).outcome = .ok b' →
    ∃ new, Logged f base b' (ws ++ new) ∧
      List.Forall₂ (Wrote f slots b'.draft) (todo.flatMap Slot.origins) new := by
  induction todo with
  | nil =>
    intro b b' ws _ _ _ _ hlog h
    cases h
    exact ⟨[], by rwa [List.append_nil], .nil⟩
  | cons s todo ih =>
    intro b b' ws hr hnodup hfresh hbase hlog h
    obtain ⟨b₁, h1, h2⟩ := Attempt.foldlM_cons_eq_ok.1 h
    obtain ⟨hname, hnodup⟩ := List.nodup_cons.1 hnodup
    obtain ⟨_, xs, -, hcont, -⟩ := branches_of_emit hr (hfresh s List.mem_cons_self) h1
    have hready := hr.of_continues hcont
    have hfresh₁ : ∀ s' ∈ todo, ∀ l ∈ b₁.draft.list, (b₁.draft.board.get l).target? ≠ none →
        (b₁.draft.board.get l).block ≠ some s'.jump.name := by
      intro s' hs' l hl htarget hblock
      rcases hcont.grows.mem_cases hl with hl | ⟨hnew, -⟩
      · obtain ⟨rs, hrs⟩ := hcont.grows.alike l (hr.linked.valid l hl)
        rw [hrs] at htarget hblock
        exact hfresh s' (List.mem_cons_of_mem _ hs') l hl htarget hblock
      · exact hname (List.mem_map.2 ⟨s', hs', List.mem_singleton.1 (hnew _ hblock)⟩)
    obtain ⟨new, hlog₁, hwrote⟩ := exists_logged_emit hr (hbase s List.mem_cons_self) hlog h1
    obtain ⟨new', hlogged, hwrote'⟩ := ih hready hnodup hfresh₁
      (fun s' hs' => hbase s' (List.mem_cons_of_mem _ hs')) hlog₁ h2
    obtain ⟨own, hcont', -⟩ := branches_of_foldlM hready hnodup hfresh₁ h2
    refine ⟨new ++ new', by rwa [← List.append_assoc], ?_⟩
    rw [List.flatMap_cons]
    refine List.rel_append (forall₂_imp_of_mem hwrote fun og w hw hog => ?_) hwrote'
    exact hog.of_grows hready.linked (Draft.mem_sets.1 (hlog₁.records.mem w (List.mem_append_right _ hw))).1
      hcont'.grows

end Build

end PulseSequencer
