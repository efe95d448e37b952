import PulseSequencer.Proofs.History
import PulseSequencer.Proofs.Settled
import PulseSequencer.Proofs.Settling

/-!
# The high time of control writes

A control write is meant to stay on the bus until it is cleared. The writes of blocks do, for nothing else is placed
inside a block. A landing is in no block: its bits stay until the next SET.

* `Draft.walk_bus`, `Draft.walk_position` : a stretch of the walk without SETs and without a jump taken;
* `Layout.undisturbed_of_marker` : no SET stands between a marker and its clearing;
* `Layout.Lasting`, `Sequence.control_writes_last` : how long a run shows a control write.
-/

namespace PulseSequencer

/-- The control bits of a state, read as those of a register value. -/
theorem Register.and_mask_eq_stateOf {r : Register} {state value : Int} : Bits.and state r.mask = r.stateOf value ↔
    ∀ i, Bits.bit r.mask i = true → Bits.bit state i = Bits.bit (r.stateOf value) i := by
  have hstate : (Bits.bits (r.stateOf value)).toInt = r.stateOf value :=
    Bits.toInt_bits_foldl_or (fun c : Binary64 => c.toWhole) _ rfl
  have hand : (Bits.bits (Bits.and state r.mask)).toInt = Bits.and state r.mask := by
    rw [Bits.bits_and]
    rfl
  rw [← hand, ← hstate, BitVec.toInt_inj, Bits.bits_eq_iff]
  refine forall_congr' fun i => ?_
  rw [Bits.bit_and]
  cases hi : Bits.bit r.mask i with
  | true => simp [hstate]
  | false =>
    have hoff : Bits.bit (r.stateOf value) i = false := by
      rw [← Bool.not_eq_true]
      intro hon
      rw [bit_mask_of_stateOf hon] at hi
      cases hi
    simp [hoff]

/-! ## A stretch of the walk -/

namespace Draft

section Walk

variable {d : Draft} {polarity : Int} {counts : Nat → Nat → Int} {maxJumps maxTicks : Nat} {w : Walk}

/-- A tick of the walk takes a jump, halts with the bus as it is, or goes on to the next position. -/
theorem walkStep_cases (d : Draft) (polarity : Int) (counts : Nat → Nat → Int) (maxJumps maxTicks : Nat) (w : Walk) :
    (d.walkStep polarity counts maxJumps maxTicks w).jumps = w.jumps + 1 ∨
    (d.walkStep polarity counts maxJumps maxTicks w).jumps = w.jumps ∧
      (((d.walkStep polarity counts maxJumps maxTicks w).halted ≠ none ∧
        (d.walkStep polarity counts maxJumps maxTicks w).bus = w.bus) ∨
      (w.halted = none ∧ (d.walkStep polarity counts maxJumps maxTicks w).position = w.position + 1) ∧
        ((∃ l e, d.at? w.position = some l ∧ (d.board.get l).action = .set e ∧
            (d.walkStep polarity counts maxJumps maxTicks w).bus = Bits.xor e.value polarity) ∨
          (∀ l, d.at? w.position = some l → (d.board.get l).isSet = false) ∧
            (d.walkStep polarity counts maxJumps maxTicks w).bus = w.bus)) := by
  unfold walkStep
  simp only
  split
  · rename_i hhalted
    exact .inr ⟨rfl, .inl ⟨Option.isSome_iff_ne_none.1 hhalted, rfl⟩⟩
  rename_i hrun
  replace hrun : w.halted = none := by simpa using hrun
  split
  · exact .inr ⟨rfl, .inl ⟨by simp, rfl⟩⟩
  cases hat : d.at? w.position with
  | none => exact .inr ⟨rfl, .inr ⟨⟨hrun, rfl⟩, .inr ⟨by simp, rfl⟩⟩⟩
  | some l =>
    have hset : ∀ {a : Action}, (d.board.get l).action = a → (∀ e, a ≠ .set e) →
        ∀ x, some l = some x → (d.board.get x).isSet = false := by
      rintro a ha hne _ ⟨⟩
      rw [Instruction.isSet, ha]
      cases a with
      | set e => exact absurd rfl (hne e)
      | wait | jump | stop => rfl
    cases hact : (d.board.get l).action with
    | set e => exact .inr ⟨by simp [hact], .inr ⟨by simp [hact, hrun], .inl ⟨l, e, rfl, hact, by simp [hact]⟩⟩⟩
    | wait duration =>
      exact .inr ⟨by simp [hact], .inr ⟨by simp [hact, hrun], .inr ⟨hset hact (by simp), by simp [hact]⟩⟩⟩
    | stop => exact .inr ⟨by simp [hact], .inl ⟨by simp [hact], by simp [hact]⟩⟩
    | jump always channel threshold g =>
      simp only [Option.map_some, hact]
      split
      · left
        split <;> rfl
      · exact .inr ⟨rfl, .inr ⟨⟨hrun, rfl⟩, .inr ⟨hset hact (by simp), rfl⟩⟩⟩

theorem jumps_le_walkStep : w.jumps ≤ (d.walkStep polarity counts maxJumps maxTicks w).jumps := by
  rcases walkStep_cases d polarity counts maxJumps maxTicks w with h | ⟨h, -⟩ <;> omega

theorem jumps_le_iterate (n : Nat) : w.jumps ≤ ((d.walkStep polarity counts maxJumps maxTicks)^[n] w).jumps := by
  induction n with
  | zero => exact le_refl _
  | succ n ih =>
    rw [Function.iterate_succ_apply']
    exact ih.trans jumps_le_walkStep

/-- Without a jump taken, the walk goes from position to position. -/
theorem walk_position (n : Nat) (hjumps : ((d.walkStep polarity counts maxJumps maxTicks)^[n] w).jumps = w.jumps)
    (hhalted : ((d.walkStep polarity counts maxJumps maxTicks)^[n] w).halted = none) :
    ((d.walkStep polarity counts maxJumps maxTicks)^[n] w).position = w.position + n := by
  induction n with
  | zero => simp
  | succ n ih =>
    rw [Function.iterate_succ_apply'] at hjumps hhalted ⊢
    set v := (d.walkStep polarity counts maxJumps maxTicks)^[n] w with hv
    have hle : w.jumps ≤ v.jumps := jumps_le_iterate n
    have hstep : v.jumps ≤ (d.walkStep polarity counts maxJumps maxTicks v).jumps := jumps_le_walkStep
    have hrun : v.halted = none := by
      by_contra hne
      rw [walkStep_of_halted hne] at hhalted
      exact hne hhalted
    have hpos := ih (by omega) hrun
    rcases walkStep_cases d polarity counts maxJumps maxTicks v with h | ⟨-, ⟨h, -⟩ | ⟨⟨-, h⟩, -⟩⟩
    · omega
    · exact absurd hhalted h
    · rw [h, hpos]
      push_cast
      ring

/-- Without a jump taken, the bus stays as it is from one SET to the next. -/
theorem walk_bus (n : Nat) (hjumps : ((d.walkStep polarity counts maxJumps maxTicks)^[n] w).jumps = w.jumps)
    (hfree : ∀ l ∈ d.sets, ¬ (w.position ≤ d.board.time l ∧ d.board.time l < w.position + n)) :
    ((d.walkStep polarity counts maxJumps maxTicks)^[n] w).bus = w.bus := by
  induction n with
  | zero => rfl
  | succ n ih =>
    rw [Function.iterate_succ_apply'] at hjumps ⊢
    set v := (d.walkStep polarity counts maxJumps maxTicks)^[n] w with hv
    have hle : w.jumps ≤ v.jumps := jumps_le_iterate n
    have hstep : v.jumps ≤ (d.walkStep polarity counts maxJumps maxTicks v).jumps := jumps_le_walkStep
    have hbus := ih (by omega) fun l hl hin => hfree l hl ⟨hin.1, by push_cast; omega⟩
    rcases walkStep_cases d polarity counts maxJumps maxTicks v with
      h | ⟨-, ⟨-, h⟩ | ⟨⟨hrun, -⟩, ⟨l, e, hat, hact, -⟩ | ⟨-, h⟩⟩⟩
    · omega
    · rw [h, hbus]
    · have hpos : v.position = w.position + n := walk_position n (by rw [← hv]; omega) hrun
      have htime : d.board.time l = v.position := by simpa using List.find?_some hat
      have hl : l ∈ d.sets := mem_sets.2 ⟨List.mem_of_find?_eq_some hat, by rw [Instruction.isSet, hact]⟩
      exact absurd ⟨by omega, by push_cast; omega⟩ (hfree l hl)
    · rw [h, hbus]

/-- What is executed with the program counter at an instruction of the draft. -/
theorem Follows.position_eq {f : Draft} {words : List Word} {s : Machine.State} {pre ls done rest : List Label}
    {held : Option Label} (h : d.Realizes f polarity words) (hfol : d.Follows f polarity s w pre ls done rest held)
    (hdelay : s.delay = 0) {x : Label} (hx : x ∈ d.list) (hpc : s.pc = f.list.idxOf x + 1) :
    w.position = d.board.time x := by
  have hmem : x ∈ f.list := h.covers.subset x hx
  have htime : f.board.time x = d.board.time x := by rw [Board.time, h.board.get_eq x (h.timed.valid x hx), Board.time]
  obtain ⟨rest', rfl⟩ : ∃ rest', rest = x :: rest' := by
    have hat := List.getElem?_idxOf hmem
    have hlen : f.list.idxOf x = done.length := by
      have := hfol.pc
      omega
    rw [hlen, hfol.filled, List.getElem?_append_right (le_refl _), Nat.sub_self] at hat
    cases rest with
    | nil => cases hat
    | cons y rest' =>
      cases hat
      exact ⟨rest', rfl⟩
  -- a filler of this tick is not in the draft
  have hother : ∀ {last : Int} {held' : Option Label}, Covers f.board last held' ls rest' → w.position ≤ last →
      f.board.time x ≠ w.position := by
    intro last held' hcov hlast heq
    have hx' := hx
    rw [hfol.list, List.mem_append] at hx'
    rcases hx' with hpre | hls
    · have := hfol.passed x hpre
      omega
    · have := hcov.lt_time x (hcov.subset x hls)
      omega
  have hcovers := hfol.covers
  rw [hdelay] at hcovers
  cases hcovers with
  | next hnext _ =>
    rw [← htime, hnext]
    simp
  | hold hnext _ hget hrest =>
    refine absurd ?_ (hother hrest (by simp))
    rw [Board.time, hget]
    simp
  | @wait _ n _ _ _ _ _ hn hnext _ hget hrest =>
    refine absurd ?_ (hother hrest (by omega))
    rw [Board.time, hget]
    simp

end Walk

end Draft

/-! ## What stands in a block -/

variable {s : Sequence} {variant : Binary64} {o : Options}

theorem Slot.eq_of_pass {sl sl' : Slot} (h : .pass sl ∈ sl'.origins) : sl = sl' := by
  have hrung : ∀ r : Rung, .pass sl ∉ r.origins sl' := fun r => by
    unfold Rung.origins
    split <;> simp
  unfold origins at h
  split at h
  · cases h
  · exact absurd h (hrung _)
  · rcases List.mem_append.1 h with h | h
    · split at h
      · cases List.mem_singleton.1 h
        rfl
      · cases h
    · obtain ⟨r, -, hr⟩ := List.mem_flatMap.1 h
      exact absurd hr (hrung r)

namespace Sketch

variable (k : Sketch s variant o)

theorem mem_slots_of_pass {sl : Slot} (h : .pass sl ∈ k.origins) : sl ∈ k.slots := by
  rcases List.mem_append.1 h with h | h
  · unfold Sequence.origins at h
    split at h <;> simp at h
  · obtain ⟨sl', hsl', h⟩ := List.mem_flatMap.1 h
    rw [Slot.eq_of_pass h]
    exact Sort.mem_sortBy.1 hsl'

/-- In a block there is nothing between the control write and its clearing. -/
theorem time_of_block (hpaired : Build.Paired k.frame k.base k.emitted.draft) {x : Label} {n : String}
    (hx : x ∈ k.emitted.draft.list) (hn : (k.emitted.draft.board.get x).block = some n) (hne : n ≠ Block.endName) :
    k.emitted.draft.board.time x ≤ k.base n ∨ k.base n + k.frame.highTime ≤ k.emitted.draft.board.time x := by
  rcases k.block_cases hx hn with hset | ⟨hend, -⟩ | ⟨sl, hsl, rfl, ladder, xs, -, hxs, hbranches⟩
  · rcases (hpaired x (Draft.mem_sets.2 ⟨hx, hset⟩) n hn).1 with h | h <;> omega
  · exact absurd hend hne
  · obtain ⟨marker, -, -, hrow⟩ := hbranches.row (hbranches.of_block hxs hn).2
    obtain ⟨i, hi, rfl⟩ := List.mem_iff_getElem.1 hxs
    have htime := hrow.time_eq (List.getElem?_eq_getElem hi)
    rw [k.base_of_mem hsl]
    left
    omega

end Sketch

namespace Layout

variable [Collation] {k : Layout s variant o} {words : List Word} {ws : List Label}

/-- After a control write, no other SET stands at the next `i` ticks. -/
def Undisturbed (k : Layout s variant o) (w : Label) (i : Int) : Prop :=
  ∀ l ∈ k.settled.sets, ¬ (k.settled.board.time (k.heir w) < k.settled.board.time l ∧
    k.settled.board.time l ≤ k.settled.board.time (k.heir w) + i)

/-- The block moves as a whole, and nothing else is placed inside it. -/
theorem undisturbed_of_block (hpaired : Build.Paired k.frame k.base k.emitted.draft) {w : Label} {n : String}
    (hw : w ∈ k.emitted.draft.sets) (hn : (k.emitted.draft.board.get w).block = some n) (hne : n ≠ Block.endName)
    (hbase : k.emitted.draft.board.time w = k.base n) {i : Int} (hi : i < k.frame.highTime) : k.Undisturbed w i := by
  rintro l hl ⟨hlt, hle⟩
  obtain ⟨-, m, hm, hmn, hmt⟩ := hpaired w hw n hn
  obtain ⟨hw, -⟩ := Draft.mem_sets.1 hw
  obtain ⟨hm, -⟩ := Draft.mem_sets.1 hm
  have hl := k.perm_settled.mem_iff.1 (Draft.mem_sets.1 hl).1
  have hwn := k.descends.block w hw n hn
  have hmn' := k.descends.block m hm n hmn
  obtain ⟨shift, -, hshift⟩ := k.placement.shift
  have hwrite := hshift _ (k.descends.mem w hw) n hwn
  have hclear := hshift _ (k.descends.mem m hm) n hmn'
  rw [k.descends.time w hw, hbase] at hwrite
  rw [k.descends.time m hm, hmt] at hclear
  rw [k.time_settled, k.time_settled] at hlt hle
  have hln : (k.ledger.board.get l).block = some n := by
    apply Draft.convex_of_place k.linked_ledger k.placed_eq (k.descends.mem w hw) hl (k.descends.mem m hm) hwn hmn'
    · omega
    · omega
  have htime := hshift l hl n hln
  obtain ⟨y, hy, rfl, hyn⟩ := k.descends.blocked l hl n hln
  rw [k.descends.time y hy] at htime
  rcases k.time_of_block hpaired hy hyn hne with h | h <;> omega

/-- No SET stands between the write that marks the start or a pass and its clearing. -/
theorem undisturbed_of_marker (hlog : Build.Logged k.frame k.base k.emitted ws)
    (hwrote : List.Forall₂ (Build.Wrote k.frame k.slots k.emitted.draft) k.origins ws) {n : Nat} {w : Label}
    {og : Origin} (hog : k.origins[n]? = some og) (hw : ws[n]? = some w) (hmark : ∀ sl r, og ≠ .landing sl r) {i : Int}
    (hi : i < k.frame.highTime) : k.Undisturbed w i := by
  have hmem := hlog.records.mem w (List.mem_of_getElem? hw)
  have hwas : Build.Wrote k.frame k.slots k.emitted.draft og w := by
    obtain ⟨hn, rfl⟩ := List.getElem?_eq_some_iff.1 hog
    obtain ⟨hn', rfl⟩ := List.getElem?_eq_some_iff.1 hw
    exact hwrote.get hn hn'
  cases og with
  | start =>
    obtain ⟨hblock, htime⟩ := hwas
    exact undisturbed_of_block hlog.paired hmem hblock (by decide) (htime.trans k.base_start.symm) hi
  | pass sl =>
    obtain ⟨hblock, htime⟩ := hwas
    have hsl := k.mem_slots_of_pass (List.mem_of_getElem? hog)
    exact undisturbed_of_block hlog.paired hmem hblock (k.unreserved hsl).2 (htime.trans (k.base_of_mem hsl).symm) hi
  | landing sl r => exact absurd rfl (hmark sl r)

/-! ## Runs -/

/-- What a SET puts on the control lines of the bus. -/
theorem controls_eq_iff (k : Layout s variant o) {value gray : Int} :
    Bits.and (Bits.xor value s.hardware.polarityMask) (Register.mask s.hardware.register) =
        Register.stateOf s.hardware.register gray ↔
      ∀ j, Bits.bit (Register.mask s.hardware.register) j = true →
        Bits.bit value j = Bits.bit (Register.stateOf s.hardware.register gray) j := by
  have hc := (Sequence.verified_of_verify k.verified).hardware
  rw [Register.and_mask_eq_stateOf]
  refine forall₂_congr fun j hj => ?_
  rw [Bits.bit_xor, hc.bit_polarityMask hj, Bool.xor_false]

/-- The machine is about to execute the word of a control write. -/
structure Executes (k : Layout s variant o) (m : Machine) (st : Machine.State) (w : Label) : Prop where
  running : st.halted = none
  tick : st.tick < m.maxTicks
  delay : st.delay = 0
  pc : st.pc = k.placeOfWrite w + 1

/-- How long a run shows the control writes `ws`, which have the ids from 1 on. -/
structure Lasting (k : Layout s variant o) (words : List Word) (ws : List Label) : Prop where
  encoded : k.addressed.encode = .ok words
  /-- The writes are those of the start, of the pass markers and of the landings, each one once. -/
  wrote : List.Forall₂ (Build.Wrote k.frame k.slots k.emitted.draft) k.origins ws
  /-- A marker is on the bus for the high time, a landing as long as no other SET stands in its way, unless a jump is
  taken. -/
  kept : ∀ (n : Nat) (og : Origin) (w : Label), k.origins[n]? = some og → ws[n]? = some w →
    ∀ (m : Machine) (idle : Int) (steps : Nat) (st : Machine.State), m.words = words.toArray →
      m.runFor steps (.initial idle) = .ok st → k.Executes m st w →
      ∀ i : Nat, i < k.frame.highTime → ((∀ sl r, og ≠ .landing sl r) ∨ k.Undisturbed w i) →
        ∃ st', m.runFor (i + 1) st = .ok st' ∧ (st'.jumps = st.jumps →
          Bits.and st'.bus (Register.mask s.hardware.register) =
            Register.stateOf s.hardware.register (Gray.encode (n + 1 : Nat)))
  /-- Any other SET takes the bits of a write from the bus. -/
  lost : ∀ (n : Nat) (w : Label), ws[n]? = some w →
    ∀ (m : Machine) (idle : Int) (steps : Nat) (st : Machine.State), m.words = words.toArray →
      m.runFor steps (.initial idle) = .ok st → k.Executes m st w →
      ∀ i : Nat, 0 < i → ∀ l ∈ k.settled.sets, k.settled.board.time l = k.settled.board.time (k.heir w) + i →
        ∃ st', m.runFor (i + 1) st = .ok st' ∧ (st'.jumps = st.jumps → st'.halted = none →
          Bits.and st'.bus (Register.mask s.hardware.register) ≠
            Register.stateOf s.hardware.register (Gray.encode (n + 1 : Nat)))

section Runs

variable (hquiet : k.Quiet) (h : k.addressed.encode = .ok words) (hlog : Build.Logged k.frame k.base k.emitted ws)
  {n : Nat} {w : Label} (hw : ws[n]? = some w)

include hquiet hlog hw

/-- The SET that a write has ended up in. -/
theorem exists_write : ∃ e, k.heir w ∈ k.settled.list ∧ (k.settled.board.get (k.heir w)).action = .set e ∧
    ∀ j, Bits.bit (Register.mask s.hardware.register) j = true →
      Bits.bit e.value j = Bits.bit (Register.stateOf s.hardware.register (Gray.encode (n + 1 : Nat))) j := by
  have hrecords := k.records_settled hquiet hlog.records
  rw [k.register_eq] at hrecords
  have hw' : (ws.map k.heir)[n]? = some (k.heir w) := by rw [List.getElem?_map, hw]; rfl
  obtain ⟨hmem, hset⟩ := Draft.mem_sets.1 (hrecords.mem _ (List.mem_of_getElem? hw'))
  exact ⟨_, hmem, Instruction.action_eq_of_isSet hset, fun j hj => (hrecords.carries hw' j hj).2⟩

/-- Another SET has other control bits. -/
theorem exists_ne_write {l : Label} (hl : l ∈ k.settled.sets) (hne : l ≠ k.heir w) :
    ∃ j, Bits.bit (Register.mask s.hardware.register) j = true ∧
      Bits.bit (k.settled.board.get l).drive.value j ≠
        Bits.bit (Register.stateOf s.hardware.register (Gray.encode (n + 1 : Nat))) j := by
  by_contra hall
  push Not at hall
  have hrecords := k.records_settled hquiet hlog.records
  have hroom := hlog.room
  rw [k.register_eq] at hrecords hroom
  have hnumbered := Sequence.numbered_of_verify k.verified
  obtain ⟨hn, -⟩ := List.getElem?_eq_some_iff.1 hw
  have hid := hnumbered.decode_valueOf (by omega) hall
  by_cases hmem : l ∈ ws.map k.heir
  · obtain ⟨m, hm⟩ := List.getElem?_of_mem hmem
    have hm' : m < ws.length := by
      have := (List.getElem?_eq_some_iff.1 hm).1
      simpa using this
    have hid' := hnumbered.decode_valueOf (by omega) fun j hj => (hrecords.carries hm j hj).2
    obtain rfl : m = n := by omega
    rw [List.getElem?_map, hw] at hm
    exact hne (Option.some.inj hm).symm
  · have hzero : Gray.decode (Register.valueOf s.hardware.register (k.settled.board.get l).drive.value) =
        (0 : Nat) := by
      refine hnumbered.decode_valueOf (Nat.zero_le _) fun j hj => ?_
      rw [hrecords.other l hl hmem j hj, Register.bit_stateOf, eq_comm, ← Bool.not_eq_true, List.any_eq_true]
      rintro ⟨b, -, hb⟩
      rw [show Gray.encode (0 : Nat) = 0 by decide, Bits.test_eq_bit, Bits.bit_zero, Bool.false_and] at hb
      cases hb
    omega

variable {m : Machine} (hm : m.words = words.toArray) {st : Machine.State} (hexec : k.Executes m st w)

include h hm hexec

/-- The walk of the settled draft, from the write on. -/
theorem exists_walk {idle : Int} {steps : Nat} (hrun : m.runFor steps (.initial idle) = .ok st) :
    ∃ v : Walk, k.settled.Agrees k.final s.hardware.polarityMask st v ∧
      v.position = k.settled.board.time (k.heir w) := by
  obtain ⟨e, hmem, -⟩ := exists_write hquiet hlog hw
  obtain ⟨st', hst, hag⟩ := (k.realizes h).runFor_agrees hm steps ((k.realizes h).agrees_initial idle)
  cases hrun.symm.trans hst
  obtain ⟨pre, ls, done, rest, held, hfol⟩ := hag.follows hexec.running
  exact ⟨_, hag, hfol.position_eq (k.realizes h) hexec.delay hmem hexec.pc⟩

theorem kept_of_undisturbed {idle : Int} {steps : Nat} (hrun : m.runFor steps (.initial idle) = .ok st) {i : Nat}
    (hfree : k.Undisturbed w i) : ∃ st', m.runFor (i + 1) st = .ok st' ∧ (st'.jumps = st.jumps →
      Bits.and st'.bus (Register.mask s.hardware.register) =
        Register.stateOf s.hardware.register (Gray.encode (n + 1 : Nat))) := by
  obtain ⟨e, hmem, hact, hbits⟩ := exists_write hquiet hlog hw
  obtain ⟨v, hag, hpos⟩ := exists_walk hquiet h hlog hw hm hexec hrun
  obtain ⟨st', hst', hag'⟩ := (k.realizes h).runFor_agrees hm (i + 1) hag
  refine ⟨st', hst', fun hjumps => ?_⟩
  rw [hag'.jumps, hag.jumps, Function.iterate_succ_apply] at hjumps
  rw [hag'.bus, Function.iterate_succ_apply]
  have hstep : k.settled.walkStep s.hardware.polarityMask m.counts m.maxJumps m.maxTicks v =
      { v with position := v.position + 1, tick := v.tick + 1, bus := Bits.xor e.value s.hardware.polarityMask } := by
    have hrunning : v.halted = none := hag.halted.symm.trans hexec.running
    have htick : ¬ m.maxTicks ≤ v.tick := by
      rw [← hag.tick]
      exact not_le.2 hexec.tick
    simp [Draft.walkStep, hrunning, htick, hpos, k.timed.at?_time hmem, hact]
  rw [hstep] at hjumps ⊢
  rw [Draft.walk_bus i hjumps fun l hl hin => hfree l hl (by simp only at hin; omega), k.controls_eq_iff]
  exact hbits

theorem lost_of_set {idle : Int} {steps : Nat} (hrun : m.runFor steps (.initial idle) = .ok st) {i : Nat} (hi : 0 < i)
    {l : Label} (hl : l ∈ k.settled.sets) (htime : k.settled.board.time l = k.settled.board.time (k.heir w) + i) :
    ∃ st', m.runFor (i + 1) st = .ok st' ∧ (st'.jumps = st.jumps → st'.halted = none →
      Bits.and st'.bus (Register.mask s.hardware.register) ≠
        Register.stateOf s.hardware.register (Gray.encode (n + 1 : Nat))) := by
  obtain ⟨v, hag, hpos⟩ := exists_walk hquiet h hlog hw hm hexec hrun
  obtain ⟨st', hst', hag'⟩ := (k.realizes h).runFor_agrees hm (i + 1) hag
  refine ⟨st', hst', fun hjumps hhalted => ?_⟩
  rw [hag'.jumps, hag.jumps, Function.iterate_succ_apply'] at hjumps
  rw [hag'.halted, Function.iterate_succ_apply'] at hhalted
  rw [hag'.bus, Function.iterate_succ_apply']
  set u := (k.settled.walkStep s.hardware.polarityMask m.counts m.maxJumps m.maxTicks)^[i] v with hu
  have hle : v.jumps ≤ u.jumps := Draft.jumps_le_iterate i
  obtain ⟨hmem, hset⟩ := Draft.mem_sets.1 hl
  rcases k.settled.walkStep_cases s.hardware.polarityMask m.counts m.maxJumps m.maxTicks u with
    hjump | ⟨hjump, ⟨hstop, -⟩ | ⟨⟨hrunning, -⟩, hbus⟩⟩
  · omega
  · exact absurd hhalted hstop
  · have hat : k.settled.at? u.position = some l := by
      rw [hu, Draft.walk_position i (by rw [← hu]; omega) hrunning, hpos, ← htime]
      exact k.timed.at?_time hmem
    obtain ⟨l', e, hat', hact, hbus⟩ | ⟨hnot, -⟩ := hbus
    · cases hat.symm.trans hat'
      have hne : l ≠ k.heir w := by
        rintro rfl
        omega
      obtain ⟨j, hj, hbit⟩ := exists_ne_write hquiet hlog hw hl hne
      rw [hbus, ne_eq, k.controls_eq_iff]
      intro hall
      rw [Instruction.drive, hact] at hbit
      exact hbit (hall j hj)
    · rw [hnot l hat] at hset
      cases hset

end Runs

end Layout

/-- Without collisions, the control writes of the start and of the pass markers are on the bus for the high time
whenever they are executed, and those of landings until the next SET, unless a jump is taken before. -/
theorem Sequence.control_writes_last [Collation] {c : Compiled} (h : (s.compile variant o).outcome = .ok c)
    (hquiet : (s.compile variant o).Quiet) : ∃ (k : Layout s variant o) (ws : List Label), k.Lasting c.words ws := by
  obtain ⟨k, hencode⟩ := Layout.exists_of_compile h
  have hk := k.quiet_of_compile hquiet
  obtain ⟨ws, hlog, hwrote⟩ := k.exists_logged hk.drawn
  refine ⟨k, ws, hencode, hwrote, fun n og w hog hw m idle steps st hm hrun hexec i hi hfree => ?_,
    fun n w hw m idle steps st hm hrun hexec i hi l => Layout.lost_of_set hk hencode hlog hw hm hexec hrun hi⟩
  apply Layout.kept_of_undisturbed hk hencode hlog hw hm hexec hrun
  rcases hfree with hmark | hfree
  · exact Layout.undisturbed_of_marker hlog hwrote hog hw hmark hi
  · exact hfree

theorem Bench.gated_writes_last : (gated.compile 0 quick).Quiet ∧ ∃ c, (gated.compile 0 quick).outcome = .ok c ∧
    ∃ (k : Layout gated 0 quick) (ws : List Label), k.Lasting c.words ws := by
  obtain ⟨c, hc⟩ := exists_compile_gated
  exact ⟨quiet_gated, c, hc, Sequence.control_writes_last hc quiet_gated⟩

end PulseSequencer
