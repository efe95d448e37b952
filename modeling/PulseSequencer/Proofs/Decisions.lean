import PulseSequencer.Proofs.Finish
import PulseSequencer.Proofs.Ladder
import PulseSequencer.Proofs.Walk

/-!
# Compiled branches decide as their ladders do

The JUMPs of a jump stand next to each other, the highest threshold first. The machine runs along them up to the first
one whose threshold the count reaches, which is the rung that the ladder selects.

* `Draft.runFor_row` : the machine along a row of JUMPs;
* `Draft.exists_infix` : instructions at consecutive ticks are neighbours;
* `Layout.jumpsOf`, `Layout.Lands` : the JUMPs of a jump, and where a rung leads to;
* `Sequence.branch_decides` : what the machine does from the first JUMP of a jump on.
-/

namespace PulseSequencer

namespace Draft

/-! ## Along a row -/

/-- The words executed by a run that goes from one address to the next. -/
def visits (tick pc n : Nat) : List Machine.Visit := (List.range n).map fun i => ⟨tick + i, pc + i⟩

theorem visits_succ (tick pc n : Nat) : visits tick pc (n + 1) = ⟨tick, pc⟩ :: visits (tick + 1) (pc + 1) n := by
  rw [visits, List.range_succ_eq_map, List.map_cons, List.map_map, visits]
  congr 1
  refine List.map_congr_left fun i _ => ?_
  simp only [Function.comp_apply, Machine.Visit.mk.injEq]
  omega

/-- The state `st'` is `st` after `n` words in a row. -/
structure Passed (n : Nat) (st st' : Machine.State) : Prop where
  halted : st'.halted = none
  delay : st'.delay = 0
  bus : st'.bus = st.bus
  tick : st'.tick = st.tick + n
  executed : st'.executed.toList = st.executed.toList ++ visits st.tick st.pc n

theorem Passed.cons {n : Nat} {st st₁ st' : Machine.State} (h : Passed n st₁ st') (hbus : st₁.bus = st.bus)
    (htick : st₁.tick = st.tick + 1) (hpc : st₁.pc = st.pc + 1)
    (hexec : st₁.executed = st.executed.push ⟨st.tick, st.pc⟩) : Passed (n + 1) st st' := by
  refine ⟨h.halted, h.delay, h.bus.trans hbus, by rw [h.tick, htick]; omega, ?_⟩
  rw [h.executed, htick, hpc, hexec, visits_succ]
  simp

section Row

variable {f : Draft} {polarity : Int} {words : List Word} {m : Machine} {count : Int} {leads : Rung → Nat → Prop}

/-- The JUMP of the rung is taken exactly by the counts that reach its threshold, and leads to the given address. -/
def Tests (f : Draft) (polarity : Int) (m : Machine) (count : Int) (leads : Rung → Nat → Prop) (r : Rung) (x : Label) :
    Prop :=
  ∃ always channel threshold address, f.linked polarity x = .jump always channel threshold address ∧
    (∀ t, (always || decide ((threshold : Int) ≤ m.counts channel t)) = decide (r.threshold ≤ .finite count)) ∧
    leads r address

/-- Along the JUMPs of rungs, the machine goes where the first rung leads whose threshold the count reaches, or past all
of them. -/
theorem runFor_row (henc : ∀ l ∈ f.list, f.Encodable polarity l)
    (hwords : words = f.list.map fun l => (f.linked polarity l).toWord) (hm : m.words = words.toArray)
    {rungs : Ladder} {row : List Label} (hrow : List.Forall₂ (f.Tests polarity m count leads) rungs row) :
    ∀ {done rest : List Label} {st : Machine.State}, f.list = done ++ row ++ rest → st.pc = done.length + 1 →
      st.halted = none → st.delay = 0 → st.jumps < m.maxJumps → st.tick + row.length < m.maxTicks →
      ∃ n st', n ≤ row.length ∧ m.runFor n st = .ok st' ∧ Passed n st st' ∧
        match rungs.find? fun r => decide (r.threshold ≤ .finite count) with
        | some r => 0 < n ∧ leads r st'.pc
        | none => n = row.length ∧ st'.pc = st.pc + n := by
  induction hrow with
  | nil =>
    intro done rest st _ _ hh hdelay _ _
    exact ⟨0, st, le_refl _, rfl, ⟨hh, hdelay, rfl, rfl, by simp [visits]⟩, rfl, rfl⟩
  | @cons r x rungs row hx _ ih =>
    intro done rest st hlist hpc hh hdelay hjumps hticks
    obtain ⟨always, channel, threshold, address, hlink, htest, hleads⟩ := hx
    rw [List.length_cons] at hticks
    have hlist' : f.list = done ++ x :: (row ++ rest) := by rw [hlist]; simp
    have hstep := step_execute henc hwords hm hh (by omega) hdelay hlist' hpc
    rw [hlink, Machine.execute] at hstep
    simp only [htest] at hstep
    rw [List.find?_cons]
    by_cases htaken : r.threshold ≤ .finite count
    · -- the rung is selected, and its JUMP is taken
      rw [decide_eq_true htaken] at hstep ⊢
      simp only [if_true, if_neg (Nat.not_lt.2 hjumps)] at hstep
      have hrun : m.runFor 1 st = .ok { st with
          tick := st.tick + 1, executed := st.executed.push ⟨st.tick, st.pc⟩, jumps := st.jumps + 1
          pc := address } := by
        rw [Machine.runFor, hstep]
        rfl
      exact ⟨1, _, by simp, hrun, ⟨hh, hdelay, rfl, rfl, by simp [visits]⟩, Nat.one_pos, hleads⟩
    · rw [decide_eq_false htaken] at hstep ⊢
      simp only [Bool.false_eq_true, if_false] at hstep
      obtain ⟨n, st', hn, hrun, hpassed, hend⟩ := @ih (done ++ [x]) rest
        { st with tick := st.tick + 1, executed := st.executed.push ⟨st.tick, st.pc⟩, pc := st.pc + 1 }
        (by rw [hlist]; simp) (by simp [hpc]) hh hdelay hjumps (by simp only; omega)
      refine ⟨n + 1, st', by rw [List.length_cons]; omega, by rw [Machine.runFor, hstep]; exact hrun,
        hpassed.cons rfl rfl rfl rfl, ?_⟩
      cases hfind : rungs.find? fun r => decide (r.threshold ≤ .finite count) with
      | some r' =>
        rw [hfind] at hend
        exact ⟨Nat.succ_pos _, hend.2⟩
      | none =>
        rw [hfind] at hend
        exact ⟨by rw [hend.1, List.length_cons], by rw [hend.2]; simp only; omega⟩

end Row

/-! ## Neighbours -/

/-- In a list with increasing ticks, instructions at consecutive ticks are neighbours. -/
theorem exists_infix {b : Board} {ls row : List Label} (h : ls.Pairwise fun x y => b.time x < b.time y)
    (hmem : ∀ x ∈ row, x ∈ ls) (hchain : row.IsChain fun x y => b.time y = b.time x + 1) :
    ∃ pre post, ls = pre ++ row ++ post := by
  induction row with
  | nil => exact ⟨[], ls, by simp⟩
  | cons x row ih =>
    cases row with
    | nil =>
      obtain ⟨pre, post, hls⟩ := List.append_of_mem (hmem x List.mem_cons_self)
      exact ⟨pre, post, by rw [hls]; simp⟩
    | cons y row =>
      obtain ⟨hxy, hchain⟩ := List.isChain_cons_cons.1 hchain
      obtain ⟨pre, post, hls⟩ := ih (fun z hz => hmem z (List.mem_cons_of_mem _ hz)) hchain
      rw [hls, List.append_assoc, List.cons_append, List.pairwise_append, List.pairwise_cons] at h
      obtain ⟨hpre, ⟨hpost, -⟩, hcross⟩ := h
      -- what comes before `y` and is not earlier than `x` is `x` itself
      have hx : x ∈ pre := by
        have := hmem x List.mem_cons_self
        rw [hls, List.append_assoc, List.cons_append, List.mem_append, List.mem_cons] at this
        rcases this with hx | rfl | hx
        · exact hx
        · omega
        · have := hpost x hx
          omega
      obtain ⟨init, tail, rfl⟩ := List.append_of_mem hx
      cases tail with
      | nil => exact ⟨init, post, by rw [hls]; simp⟩
      | cons z tail =>
        have h1 := (List.pairwise_cons.1 (List.pairwise_append.1 hpre).2.1).1 z List.mem_cons_self
        have h2 := hcross z (by simp) y List.mem_cons_self
        omega

end Draft

namespace Build

variable {f : Frame} {slots : List Slot} {s : Slot} {marker : Option Label} {b : Board} {tick : Int} {rungs : Ladder}
  {xs : List Label}

/-- The JUMPs of a row stand at consecutive ticks, the first rung's last. -/
theorem Row.ticks (h : Row f slots s marker b tick rungs xs) :
    (xs.IsChain fun x y => b.time x = b.time y + 1) ∧ ∀ x ∈ xs.head?, b.time x = tick := by
  induction h with
  | nil => exact ⟨.nil, by simp⟩
  | @cons tick r rest x g xs hx _ hrest ih =>
    have htime : b.time x = tick := by rw [Board.time, hx]; rfl
    refine ⟨?_, by simpa using htime⟩
    cases xs with
    | nil => exact .singleton _
    | cons y ys =>
      refine .cons_cons ?_ ih.1
      have := ih.2 y rfl
      omega

end Build

namespace Layout

variable [Collation] {s : Sequence} {variant : Binary64} {o : Options} {k : Layout s variant o} {words : List Word}
  {sl : Slot} {marker : Option Label} {rungs : Ladder} {xs : List Label}

/-- The JUMPs of a jump in the final list. -/
def jumpsOf (k : Layout s variant o) (name : String) : List Label :=
  k.final.list.filter fun l => (k.final.board.get l).block == some name && (k.final.board.get l).target?.isSome

/-- The instruction of the final list that a rung of a slot leads to: the END, what has become of the control write that
the JUMP of the rung goes to, or what has become of the marker. -/
def Lands (k : Layout s variant o) (sl : Slot) (marker : Option Label) (r : Rung) (l : Label) : Prop :=
  match r.target with
  | .terminate => (k.final.board.get l).action = .stop
  | .destination ref => ∃ x time g id tick, k.emitted.draft.board.get x = Build.jumping sl r time g ∧
      (Build.destinationTick k.frame k.slots sl.jump.name ref).outcome = .ok tick ∧
      k.emitted.draft.board.get g = { k.frame.writing id tick none with reachedBy := [x] } ∧ l = k.heir g ∧
      (k.final.board.get l).isSet = true
  | .pass => ∃ m, marker = some m ∧ l = k.heir m ∧ (k.final.board.get l).isSet = true

theorem isSet_heir {l : Label} (hl : l ∈ k.emitted.draft.list) (hset : (k.emitted.draft.board.get l).isSet = true) :
    (k.final.board.get (k.heir l)).isSet = true := by
  rw [(final_of_ledger (k.descends.mem l hl)).1, k.descends.isSet l hl, hset]

theorem lands_of_goal {r : Rung} {x g : Label} {time : Int} (hx : x ∈ k.emitted.draft.list)
    (hget : k.emitted.draft.board.get x = Build.jumping sl r time g)
    (hgoal : Build.Goal k.frame k.slots sl marker k.emitted.draft.board x r.target g)
    (hmarks : ∀ m ∈ marker, Build.Marks k.frame sl k.emitted.draft m) : k.Lands sl marker r (k.heir g) := by
  have hg : g ∈ k.emitted.draft.list := (k.ready_emitted.linked.target x hx g (by rw [hget]; rfl)).1
  unfold Lands
  generalize r.target = t at hgoal
  cases hgoal with
  | terminate =>
    have hset : (k.emitted.draft.board.get k.frame.final).isSet = false := by
      rw [Instruction.isSet, k.ready_emitted.stop]
    obtain ⟨hself, hledger⟩ := k.descends.other _ hg hset
    have hmem := k.descends.mem _ hg
    simp only
    rw [hself] at hmem ⊢
    rw [(final_of_ledger hmem).2.2.1 (by rw [hledger, Instruction.isSet_retarget, hset]), hledger,
      Instruction.retarget, k.ready_emitted.stop]
    exact k.ready_emitted.stop
  | @destination ref tick _ id htick hcell =>
    exact ⟨x, time, g, id, tick, hget, htick, hcell, rfl, isSet_heir hg (by rw [hcell]; rfl)⟩
  | pass hm =>
    obtain ⟨-, id, rs, hcell⟩ := hmarks g hm
    exact ⟨g, hm, rfl, isSet_heir hg (by rw [hcell]; rfl)⟩

/-! ## Where the row stands -/

/-- The members of a block keep their distances. -/
theorem exists_shift (k : Layout s variant o) (name : String) : ∃ shift : Int, ∀ l ∈ k.emitted.draft.list,
    (k.emitted.draft.board.get l).block = some name →
      k.final.board.time (k.heir l) = k.emitted.draft.board.time l + shift := by
  obtain ⟨shift, -, hshift⟩ := k.placement.shift
  refine ⟨shift name, fun l hl hb => ?_⟩
  have hmem := k.descends.mem l hl
  rw [(final_of_ledger hmem).2.2.2, hshift _ hmem name (k.descends.block l hl name hb), k.descends.time l hl]

/-- The JUMPs of a row are neighbours in the final list, and the marker comes right behind them. -/
theorem exists_row (hrow : Build.Row k.frame k.slots sl marker k.emitted.draft.board sl.tick rungs xs)
    (hxs : ∀ x ∈ xs, x ∈ k.emitted.draft.list) (hmarks : ∀ m ∈ marker, Build.Marks k.frame sl k.emitted.draft m) :
    ∃ pre post, k.final.list = pre ++ xs.reverse ++ ((marker.map k.heir).toList ++ post) := by
  obtain ⟨shift, hshift⟩ := k.exists_shift sl.jump.name
  have hself : ∀ x ∈ xs, k.heir x = x := fun x hx => by
    obtain ⟨r, -, time, g, hget, -⟩ := forall₂_exists_left hrow.forall₂ hx
    exact (k.descends.other x (hxs x hx) (by rw [hget]; rfl)).1
  have htime : ∀ x ∈ xs, k.final.board.time x = k.emitted.draft.board.time x + shift := fun x hx => by
    have := hshift x (hxs x hx) (hrow.block x hx)
    rwa [hself x hx] at this
  have hmarker : ∀ y ∈ (marker.map k.heir).toList, y ∈ k.final.list ∧ k.final.board.time y = sl.tick + 1 + shift := by
    intro y hy
    obtain ⟨m, hm, rfl⟩ := Option.map_eq_some_iff.1 (Option.mem_toList.1 hy)
    obtain ⟨hmem, id, rs, hcell⟩ := hmarks m hm
    refine ⟨k.mem_final (k.descends.mem m hmem), ?_⟩
    rw [hshift m hmem (by rw [hcell]; rfl), Board.time, hcell]
    rfl
  have hmem : ∀ y ∈ xs.reverse ++ (marker.map k.heir).toList, y ∈ k.final.list := fun y hy => by
    rcases List.mem_append.1 hy with hy | hy
    · rw [List.mem_reverse] at hy
      rw [← hself y hy]
      exact k.mem_final (k.descends.mem y (hxs y hy))
    · exact (hmarker y hy).1
  have hchain : (xs.reverse ++ (marker.map k.heir).toList).IsChain fun x y =>
      k.final.board.time y = k.final.board.time x + 1 := by
    refine List.isChain_append.2 ⟨?_, ?_, fun x hx y hy => ?_⟩
    · refine List.isChain_reverse.2 (hrow.ticks.1.imp_of_mem_imp fun x y hx hy hxy => ?_)
      rw [htime x hx, htime y hy]
      omega
    · cases marker with
      | none => exact .nil
      | some m => exact .singleton _
    · rw [List.getLast?_reverse] at hx
      rw [(hmarker y (List.mem_of_mem_head? hy)).2, htime x (List.mem_of_mem_head? hx), hrow.ticks.2 x hx]
      omega
  obtain ⟨pre, post, hlist⟩ := Draft.exists_infix k.scheduled_final.increasing hmem hchain
  exact ⟨pre, post, by rw [hlist]; simp⟩

/-- The row is all JUMPs of the jump. -/
theorem jumpsOf_eq {pre post : List Label} (hlist : k.final.list = pre ++ xs.reverse ++ post)
    (hrow : Build.Row k.frame k.slots sl marker k.emitted.draft.board sl.tick rungs xs)
    (hxs : ∀ x ∈ xs, x ∈ k.emitted.draft.list)
    (hall : ∀ l ∈ k.emitted.draft.list, (k.emitted.draft.board.get l).target? ≠ none →
      (k.emitted.draft.board.get l).block = some sl.jump.name → l ∈ xs) : k.jumpsOf sl.jump.name = xs.reverse := by
  have hiff : ∀ l ∈ k.final.list, ((k.final.board.get l).block == some sl.jump.name &&
      (k.final.board.get l).target?.isSome) = true ↔ l ∈ xs := by
    intro l hl
    rw [Bool.and_eq_true, beq_iff_eq, Option.isSome_iff_ne_none]
    constructor
    · rintro ⟨hblock, htarget⟩
      have hmem : l ∈ k.ledger.list := by
        rcases k.covers_final.2.mem_or_target? l hl with hmem | hnone
        · exact k.perm_settled.mem_iff.1 hmem
        · exact absurd hnone htarget
      obtain ⟨hset, hblock', haction, -⟩ := final_of_ledger hmem
      have hnot : (k.ledger.board.get l).isSet = false := by
        rw [← hset, ← Bool.not_eq_true]
        exact fun h => htarget (Instruction.target?_of_isSet h)
      obtain ⟨hl', hset'⟩ := k.descends.back l hmem hnot
      have hledger := (k.descends.other l hl' hset').2
      refine hall l hl' (fun hnone => htarget ?_) ?_
      · rw [Instruction.target?, haction hnot, hledger, Instruction.retarget_of_target?_eq_none hnone]
        exact hnone
      · rw [← hblock, hblock', hledger, Instruction.block_retarget]
    · intro hx
      obtain ⟨r, -, time, g, hget, -⟩ := forall₂_exists_left hrow.forall₂ hx
      obtain ⟨hmem, haction, -⟩ := jump_final (hxs l hx) (by rw [hget]; rfl)
      refine ⟨?_, by rw [Instruction.target?, haction]; simp⟩
      rw [(final_of_ledger hmem).2.1, (k.descends.other l (hxs l hx) (by rw [hget]; rfl)).2,
        Instruction.block_retarget, hget]
      rfl
  have hnodup := k.scheduled_final.nodup
  rw [jumpsOf]
  rw [hlist] at hiff hnodup ⊢
  rw [List.append_assoc, List.nodup_append, List.nodup_append] at hnodup
  obtain ⟨-, ⟨-, -, hpost⟩, hpre⟩ := hnodup
  rw [List.filter_append, List.filter_append, List.filter_eq_nil_iff.2, List.filter_eq_self.2, List.filter_eq_nil_iff.2]
  · simp
  · intro l hl h
    exact hpost l (List.mem_reverse.2 ((hiff l (by simp [hl])).1 h)) l hl rfl
  · intro l hl
    exact (hiff l (by simp [List.mem_reverse.1 hl])).2 (List.mem_reverse.1 hl)
  · intro l hl h
    exact hpre l hl l (List.mem_append_left _ (List.mem_reverse.2 ((hiff l (by simp [hl])).1 h))) rfl

/-! ## What the row decides -/

/-- An address at which a rung leads to. -/
def LeadsTo (k : Layout s variant o) (sl : Slot) (marker : Option Label) (r : Rung) (address : Nat) : Prop :=
  ∃ l ∈ k.final.list, address = k.final.list.idxOf l + 1 ∧ k.Lands sl marker r l

theorem tests_of_jumping {ladder : Ladder} {m : Machine} {count : Int} {r : Rung} {x g : Label} {time : Int}
    (hground : ladder.Grounded) (hr : r ∈ ladder) (hx : x ∈ k.emitted.draft.list)
    (hcell : k.emitted.draft.board.get x = Build.jumping sl r time g)
    (hgoal : Build.Goal k.frame k.slots sl marker k.emitted.draft.board x r.target g)
    (hmarks : ∀ m ∈ marker, Build.Marks k.frame sl k.emitted.draft m) (hcount : 0 ≤ count)
    (hcounts : ∀ t, m.counts sl.channel.toWhole.toNat t = count) :
    k.final.Tests s.hardware.polarityMask m count (k.LeadsTo sl marker) r x := by
  obtain ⟨hmem, hact, hheir⟩ := jump_final hx (by rw [hcell]; rfl)
  have hleads : k.LeadsTo sl marker r (k.final.list.idxOf (k.heir g) + 1) :=
    ⟨k.heir g, k.mem_final hheir, rfl, lands_of_goal hx hcell hgoal hmarks⟩
  have hlink : k.final.linked s.hardware.polarityMask x = .jump (r.threshold.equal 0)
      (if r.threshold.equal 0 then 0 else sl.channel).toWhole.toNat
      (if r.threshold.equal 0 then 0 else r.threshold).toWhole.toNat (k.final.list.idxOf (k.heir g) + 1) := by
    simp only [Draft.linked, hact]
  refine ⟨_, _, _, _, hlink, fun t => ?_, hleads⟩
  cases hzero : r.threshold.equal 0 with
  | true =>
    rw [(hground.equal_zero_iff hr).1 hzero, Bool.true_or, eq_comm, decide_eq_true_eq, Binary64.finite_le]
    exact_mod_cast hcount
  | false =>
    rw [Bool.false_or, if_neg Bool.false_ne_true, if_neg Bool.false_ne_true, hcounts]
    exact decide_eq_decide.2 (hground.le_iff hr count).symm

/-- Along the row the machine goes where the selected rung leads. -/
theorem runFor_branch {ladder : Ladder} {m : Machine} {st : Machine.State} {count : Int} {pre post : List Label}
    (h : k.addressed.encode = .ok words) (hground : ladder.Grounded)
    (hrow : Build.Row k.frame k.slots sl marker k.emitted.draft.board sl.tick (Build.jumpRungs ladder) xs)
    (hxs : ∀ x ∈ xs, x ∈ k.emitted.draft.list) (hmarks : ∀ m ∈ marker, Build.Marks k.frame sl k.emitted.draft m)
    (hpass : (∃ r ∈ ladder, r.target = .pass) → ∃ m, marker = some m) (hne : xs ≠ [])
    (hlist : k.final.list = pre ++ xs.reverse ++ ((marker.map k.heir).toList ++ post)) (hm : m.words = words.toArray)
    (hcount : 0 ≤ count) (hcounts : ∀ t, m.counts sl.channel.toWhole.toNat t = count) (hpc : st.pc = pre.length + 1)
    (hdelay : st.delay = 0) (hh : st.halted = none) (hjumps : st.jumps < m.maxJumps)
    (hticks : st.tick + xs.reverse.length < m.maxTicks) :
    ∃ r, ladder.find? (fun r => decide (r.threshold ≤ .finite count)) = some r ∧
      ladder.select (.finite count) = .ok r.target ∧ ∃ n st', 0 < n ∧ n ≤ xs.reverse.length ∧
        m.runFor n st = .ok st' ∧ Draft.Passed n st st' ∧ k.LeadsTo sl marker r st'.pc := by
  have htests : List.Forall₂ (k.final.Tests s.hardware.polarityMask m count (k.LeadsTo sl marker))
      (Build.jumpRungs ladder).reverse xs.reverse := by
    refine List.forall₂_reverse_iff.2 (List.forall₂_iff_zip.2 ⟨hrow.forall₂.length_eq, fun {r x} hmem => ?_⟩)
    obtain ⟨time, g, hcell, hgoal⟩ := (List.forall₂_iff_zip.1 hrow.forall₂).2 hmem
    obtain ⟨hr, hx⟩ := List.of_mem_zip hmem
    exact tests_of_jumping hground (Build.mem_of_mem_jumpRungs hr) (hxs x hx) hcell hgoal hmarks hcount hcounts
  obtain ⟨n, st', hn, hrun, hpassed, hend⟩ := Draft.runFor_row (fun l hl => encodable_of_encode h hl)
    (words_of_encode h) hm htests hlist hpc hh hdelay hjumps hticks
  obtain ⟨r, hfind, hselect⟩ := hground.exists_find hcount
  refine ⟨r, hfind, hselect, n, st', ?_⟩
  rcases Build.jumpRungs_cases hground with ⟨init, e, rfl, htarget, hrungs⟩ | ⟨hrungs, -⟩
  · -- the last rung passes and has no JUMP: it is selected if no other rung is
    rw [hrungs, List.reverse_reverse] at hend
    rw [List.find?_append] at hfind
    cases hinit : init.find? fun r => decide (r.threshold ≤ .finite count) with
    | some r' =>
      rw [hinit] at hend hfind
      cases hfind
      exact ⟨hend.1, hn, hrun, hpassed, hend.2⟩
    | none =>
      rw [hinit] at hend hfind
      rw [Option.none_or] at hfind
      obtain rfl : e = r := List.mem_singleton.1 (List.mem_of_find?_eq_some hfind) |>.symm
      obtain ⟨m', rfl⟩ := hpass ⟨e, by simp, htarget⟩
      obtain ⟨hmem, id, rs, hcell⟩ := hmarks m' rfl
      refine ⟨?_, hn, hrun, hpassed, k.heir m', k.mem_final (k.descends.mem m' hmem), ?_, ?_⟩
      · rw [hend.1]
        exact List.length_pos_of_ne_nil (by simpa using hne)
      · have hnodup := k.scheduled_final.nodup
        rw [hend.2, hend.1, hpc, hlist]
        rw [hlist] at hnodup
        have hnot : k.heir m' ∉ pre ++ xs.reverse := fun hin =>
          (List.nodup_append.1 hnodup).2.2 _ hin _ (by simp) rfl
        rw [List.idxOf_append_of_notMem hnot]
        simp
        omega
      · unfold Lands
        rw [htarget]
        exact ⟨m', rfl, rfl, isSet_heir hmem (by rw [hcell]; rfl)⟩
  · rw [hrungs, List.reverse_reverse, hfind] at hend
    exact ⟨hend.1, hn, hrun, hpassed, hend.2⟩

end Layout

/-- The JUMPs of a jump are neighbours among the words, behind `pre`. From the first of them on, a count that stays the
same leads the machine past JUMPs of this row only, and then to the instruction that the selected rung stands for, the
first of the ladder whose threshold the count reaches. -/
structure Layout.Decides [Collation] {s : Sequence} {variant : Binary64} {o : Options} (k : Layout s variant o)
    (words : List Word) (sl : Slot) (ladder : Ladder) (p : PulseCounter) (marker : Option Label)
    (pre post : List Label) : Prop where
  encoded : k.addressed.encode = .ok words
  slot : sl ∈ k.slots
  marks : ∀ m ∈ marker, Build.Marks k.frame sl k.emitted.draft m
  list : k.final.list = pre ++ k.jumpsOf sl.jump.name ++ post
  length : (k.jumpsOf sl.jump.name).length = (Build.jumpRungs ladder).length
  decides : ∀ (m : Machine) (st : Machine.State) (count : Int), m.words = words.toArray → 0 ≤ count →
    (∀ t, m.counts p.channel.toWhole.toNat t = count) → st.pc = pre.length + 1 → st.delay = 0 → st.halted = none →
    st.jumps < m.maxJumps → st.tick + (k.jumpsOf sl.jump.name).length < m.maxTicks →
    ∃ r, ladder.find? (fun r => decide (r.threshold ≤ .finite count)) = some r ∧
      ladder.select (.finite count) = .ok r.target ∧
      ∃ n st' l, 0 < n ∧ n ≤ (k.jumpsOf sl.jump.name).length ∧ m.runFor n st = .ok st' ∧ Draft.Passed n st st' ∧
        l ∈ k.final.list ∧ st'.pc = k.final.list.idxOf l + 1 ∧
        m.step st' = .ok (m.execute (k.final.linked s.hardware.polarityMask l) st') ∧ k.Lands sl marker r l

/-- In every compiled sequence the jumps with several rungs decide as their ladders say. -/
theorem Sequence.branch_decides [Collation] {s : Sequence} {variant : Binary64} {o : Options} {c : Compiled}
    (h : (s.compile variant o).outcome = .ok c) {j : Jump} {ch : Channel} {ladder : Ladder} (hj : (j, ch) ∈ s.jumps)
    (hladder : j.mergedLadder = .ok ladder) (hlen : 2 ≤ ladder.length) :
    ∃ (k : Layout s variant o) (sl : Slot) (p : PulseCounter) (marker : Option Label) (pre post : List Label),
      sl.jump = j ∧ Sequence.pulseCounter s.hardware ch.name = .ok p ∧
      k.Decides c.words sl ladder p marker pre post := by
  obtain ⟨k, hk⟩ := Layout.exists_of_compile h
  obtain ⟨sl, hsl, rfl, -, p, hp, hchannel⟩ := k.exists_slot hj
  rw [show k.frame.sequence.hardware = s.hardware from congrArg Sequence.hardware k.sequence_eq] at hp
  obtain ⟨own, -, hbranches⟩ := k.branches
  obtain ⟨ladder', hladder', hb⟩ := hbranches sl hsl
  cases hladder.symm.trans hladder'
  have hground := Ladder.grounded_of_mergedLadder hladder
  obtain ⟨marker, hmarks, hpass, hrow⟩ := hb.row fun r hr => by simp [hr] at hlen
  obtain ⟨pre, post, hlist⟩ := Layout.exists_row hrow hb.mem hmarks
  have hjumps := Layout.jumpsOf_eq hlist hrow hb.mem hb.all
  have hlength : (own sl).length = (Build.jumpRungs ladder).length := hrow.forall₂.length_eq.symm
  refine ⟨k, sl, p, marker, pre, (marker.map k.heir).toList ++ post, rfl, hp, hk, hsl, hmarks, ?_, ?_, ?_⟩
  · rw [hjumps, hlist]
  · rw [hjumps, List.length_reverse, hlength]
  · intro m st count hm hcount hcounts hpc hdelay hh hmax hticks
    rw [hjumps] at hticks ⊢
    have hne : own sl ≠ [] := fun hnil => by
      rw [hnil] at hlength
      rcases Build.jumpRungs_cases hground with ⟨init, e, rfl, -, hrungs⟩ | ⟨hrungs, -⟩ <;>
        rw [hrungs] at hlength <;> simp at hlength hlen <;> omega
    obtain ⟨r, hfind, hselect, n, st', hpos, hn, hrun, hpassed, l, hl, hpc', hlands⟩ :=
      Layout.runFor_branch hk hground hrow hb.mem hmarks hpass hne hlist hm hcount (by rw [hchannel]; exact hcounts) hpc
        hdelay hh hmax hticks
    refine ⟨r, hfind, hselect, n, st', l, hpos, hn, hrun, hpassed, hl, hpc', ?_, hlands⟩
    obtain ⟨done, rest, hsplit⟩ := List.append_of_mem hl
    have hidx : k.final.list.idxOf l = done.length := by
      have hnodup := k.scheduled_final.nodup
      rw [hsplit] at hnodup ⊢
      have hnot : l ∉ done := fun hin => (List.nodup_append.1 hnodup).2.2 _ hin _ List.mem_cons_self rfl
      rw [List.idxOf_append_of_notMem hnot, List.idxOf_cons_self, Nat.add_zero]
    exact Draft.step_execute (fun l hl => Layout.encodable_of_encode hk hl) (Layout.words_of_encode hk) hm
      hpassed.halted (by rw [hpassed.tick]; omega) hpassed.delay hsplit (by rw [hpc', hidx])

theorem Bench.gated_decides : ∃ c ladder, (gated.compile 0 quick).outcome = .ok c ∧ (choose, detector) ∈ gated.jumps ∧
    choose.mergedLadder = .ok ladder ∧ 2 ≤ ladder.length ∧
    ∃ (k : Layout gated 0 quick) (sl : Slot) (p : PulseCounter) (marker : Option Label) (pre post : List Label),
      sl.jump = choose ∧ Sequence.pulseCounter hardware detector.name = .ok p ∧
      k.Decides c.words sl ladder p marker pre post := by
  obtain ⟨c, h⟩ := exists_compile_gated
  have hmem : (choose, detector) ∈ gated.jumps := List.mem_singleton.2 rfl
  have hladder : choose.mergedLadder =
      .ok [⟨5, .terminate⟩, ⟨3, .destination (.start "late")⟩, ⟨0, .pass⟩] := by
    decide +kernel
  exact ⟨c, _, h, hmem, hladder, by decide, Sequence.branch_decides h hmem hladder (by decide)⟩

end PulseSequencer
