import PulseSequencer.Proofs.Settled

/-!
# Programs stay in their code

The machine follows a walk along the placed list, so it stands in front of a word as long as it runs.

* `Draft.Covers.sum_width` : the words of a filled list take the ticks up to its last instruction;
* `Draft.Realizes.runFor_within` : no run leaves the words of a timed list;
* `Sequence.confined_of_compile` : the same for every compiled sequence, with the shape of its words.
-/

namespace PulseSequencer

namespace Machine

/-- The program counter stands in front of a word. -/
def State.Within (size : Nat) (st : State) : Prop := 1 ≤ st.pc ∧ st.pc ≤ size

theorem pc_of_execute_stops {m : Machine} {op : Operation} {st : State} (h : (m.execute op st).1 = false) :
    (m.execute op st).2.pc = st.pc := by
  cases op with
  | wait | set => cases h
  | stop => rfl
  | jump always channel threshold address =>
    unfold execute at h ⊢
    simp only at h ⊢
    split_ifs at h ⊢
    rfl

theorem halted_of_execute_goes {m : Machine} {op : Operation} {st : State} (h : (m.execute op st).1 = true) :
    (m.execute op st).2.halted = st.halted := by
  cases op with
  | wait | set => rfl
  | stop => cases h
  | jump always channel threshold address =>
    unfold execute at h ⊢
    simp only at h ⊢
    split_ifs at h ⊢ <;> rfl

/-- A step that ends the run leaves the program counter, one that does not leaves the machine running. -/
theorem stops_or_runs {m : Machine} {st st' : State} {go : Bool} (h : m.step st = .ok (go, st')) :
    (go = false ∧ st'.pc = st.pc) ∨ (go = true ∧ st'.halted = none) := by
  obtain ⟨-, hgo, rfl⟩ | ⟨-, -, hgo, rfl⟩ | ⟨hhalted, -, -, hgo, rfl⟩ | ⟨hhalted, -, -, w, -, hex⟩ := step_cases h
  · exact .inl ⟨hgo, rfl⟩
  · exact .inl ⟨hgo, rfl⟩
  · exact .inr ⟨hgo, hhalted⟩
  · obtain ⟨hgo, rfl⟩ := Prod.mk.inj hex
    cases go with
    | false => exact .inl ⟨rfl, pc_of_execute_stops hgo⟩
    | true => exact .inr ⟨rfl, (halted_of_execute_goes hgo).trans hhalted⟩

end Machine

namespace Draft

/-! ## Widths of words -/

/-- The tick of the last label, `last` if there is none. -/
def lastTime (b : Board) (last : Int) (ls : List Label) : Int := (ls.getLast?.map b.time).getD last

theorem lastTime_cons (b : Board) (last : Int) (l : Label) (ls : List Label) :
    lastTime b last (l :: ls) = lastTime b (b.time l) ls := by
  unfold lastTime
  rw [List.getLast?_cons]
  cases ls.getLast? <;> rfl

variable {d f : Draft} {polarity : Int} {words : List Word}

theorem linked_eq_stop {l : Label} : f.linked polarity l = .stop ↔ (f.board.get l).action = .stop := by
  unfold linked
  split <;> simp_all

theorem width_linked {l : Label} (h : ∀ duration, (f.board.get l).action ≠ .wait duration) :
    (f.linked polarity l).width = 1 := by
  unfold linked
  split
  · rename_i duration hact
    exact absurd hact (h duration)
  all_goals rfl

theorem width_wait {x : Label} {n : Int} (hn : 1 ≤ n) (henc : f.Encodable polarity x)
    (hx : (f.board.get x).action = .wait (.ofInt n)) : ((f.linked polarity x).width : Int) = n + 1 := by
  have hlimit : Word.durationLimit ≤ Binary64.significandLimit := by decide
  simp only [Encodable, hx, Binary64.duration_iff (show 0 ≤ n by omega)] at henc
  simp only [linked, hx, Operation.width]
  rw [Binary64.ofInt_eq (by omega), Binary64.toWhole_finite_intCast]
  omega

/-- The words of a filled list take all ticks after `last` up to that of the last instruction. -/
theorem Covers.sum_width {last : Int} {held : Option Label} {ls filled : List Label}
    (h : Covers f.board last held ls filled) (hls : ∀ l ∈ ls, ∀ duration, (f.board.get l).action ≠ .wait duration)
    (henc : ∀ l ∈ filled, f.Encodable polarity l) :
    ((filled.map fun l => (f.linked polarity l).width).sum : Int) = lastTime f.board last ls - last := by
  induction h with
  | nil => simp [lastTime]
  | @next last held l ls filled htime _ ih =>
    have hrest := ih (fun x hx => hls x (List.mem_cons_of_mem _ hx)) fun x hx => henc x (List.mem_cons_of_mem _ hx)
    rw [List.map_cons, List.sum_cons, width_linked (hls l List.mem_cons_self), lastTime_cons]
    rw [Nat.cast_add]
    omega
  | @hold last g x l ls filled htime _ hx _ ih =>
    have hrest := ih hls fun y hy => henc y (List.mem_cons_of_mem _ hy)
    rw [lastTime_cons] at hrest
    rw [List.map_cons, List.sum_cons, width_linked (by simp [hx]), lastTime_cons]
    rw [Nat.cast_add]
    omega
  | @wait last n held x l ls filled hn htime _ hx _ ih =>
    have hrest := ih hls fun y hy => henc y (List.mem_cons_of_mem _ hy)
    have hone := width_wait hn (henc x List.mem_cons_self) (by rw [hx])
    rw [lastTime_cons] at hrest
    rw [List.map_cons, List.sum_cons, lastTime_cons]
    rw [Nat.cast_add]
    omega

/-! ## Runs -/

theorem Realizes.length_words (h : d.Realizes f polarity words) : words.length = f.list.length := by
  rw [h.words, List.length_map]

/-- A machine that follows the walk has a word in front of it. -/
theorem Agrees.within {st : Machine.State} {w : Walk} (hag : d.Agrees f polarity st w)
    (h : d.Realizes f polarity words) (hrun : st.halted = none) : st.Within words.length := by
  obtain ⟨pre, ls, done, rest, held, hfol⟩ := hag.follows hrun
  obtain ⟨l, hl⟩ := List.exists_mem_of_ne_nil _ hfol.ne_nil
  have hpos : 0 < rest.length := List.length_pos_of_mem (hfol.covers.subset l hl)
  have hpc := hfol.pc
  unfold Machine.State.Within
  rw [h.length_words, hfol.filled, List.length_append]
  omega

/-- No run along a timed list leaves its words. -/
theorem Realizes.runFor_within (h : d.Realizes f polarity words) {m : Machine} (hm : m.words = words.toArray)
    (n : Nat) :
    ∀ {st : Machine.State} {w : Walk}, d.Agrees f polarity st w → st.Within words.length →
      ∃ st', m.runFor n st = .ok st' ∧ st'.Within words.length := by
  induction n with
  | zero => exact fun {st} _ _ hin => ⟨st, rfl, hin⟩
  | succ n ih =>
    intro st w hag hin
    obtain ⟨go, st', hstep, -, hag'⟩ := h.step_agrees hm hag
    rw [Machine.runFor_succ hstep]
    refine ih hag' ?_
    rcases Machine.stops_or_runs hstep with ⟨-, hpc⟩ | ⟨-, hrun⟩
    · unfold Machine.State.Within
      rw [hpc]
      exact hin
    · exact hag'.within h hrun

end Draft

namespace Layout

variable [Collation] {s : Sequence} {variant : Binary64} {o : Options} {k : Layout s variant o} {words : List Word}

/-! ## Words -/

theorem action_final : (k.settled.board.get k.frame.final).action = .stop := by
  obtain ⟨init, l, hlist, hstop⟩ := k.timed.last
  obtain ⟨init', hlist'⟩ := k.last_settled
  obtain ⟨-, hlast⟩ := List.append_inj' (hlist.symm.trans hlist') rfl
  cases hlast
  exact hstop

/-- The END is the only instruction of its kind. -/
theorem linked_eq_stop_iff {l : Label} (hl : l ∈ k.final.list) :
    k.final.linked s.hardware.polarityMask l = .stop ↔ l = k.frame.final := by
  rw [Draft.linked_eq_stop]
  constructor
  · intro hstop
    -- what fills a gap is a SET or a WAIT, so this is one of the placed instructions
    have hmem : l ∈ k.settled.list := by
      rcases k.covers_final.2.mem_or_filler l hl with hmem | hset | ⟨duration, hwait⟩
      · exact hmem
      · rw [Instruction.isSet, hstop] at hset
        cases hset
      · rw [hstop] at hwait
        cases hwait
    rw [k.get_final hmem] at hstop
    rcases k.cases_settled hmem (by rw [Instruction.isSet, hstop]) with ⟨hl, -⟩ | ⟨_, _, _, _, hjump, -⟩
    · exact hl
    · rw [hstop] at hjump
      cases hjump
  · rintro rfl
    have hmem : k.frame.final ∈ k.settled.list := k.perm_settled.mem_iff.2 k.ending_ledger.1
    rw [k.get_final hmem]
    exact action_final

/-- The END comes last in the filled list as well. -/
theorem last_final : ∃ init, k.final.list = init ++ [k.frame.final] := by
  obtain ⟨init, hlist⟩ := k.last_settled
  have hlast := k.covers_final.2.getLast?_eq
  rw [hlist, List.getLast?_concat, List.getLast?_eq_some_iff] at hlast
  exact hlast

/-- The words take as many ticks as the sequence has. -/
theorem sum_width_words (h : k.addressed.encode = .ok words) :
    ((words.map fun w => (Operation.ofWord w).width).sum : Int) = k.length := by
  have hreal := realizes h
  have hmap : (words.map fun w => (Operation.ofWord w).width) =
      k.final.list.map fun l => (k.final.linked s.hardware.polarityMask l).width := by
    rw [hreal.words, List.map_map]
    refine List.map_congr_left fun l hl => ?_
    rw [Function.comp_apply, Operation.ofWord_toWord (hreal.encodable l hl).fits]
  rw [hmap, hreal.covers.sum_width (fun l hl => ?_) hreal.encodable]
  · obtain ⟨init, hlist⟩ := k.last_settled
    have hmem : k.frame.final ∈ k.settled.list := by
      rw [hlist]
      simp
    have htime := k.time_end
    rw [Board.time, ← k.get_final hmem] at htime
    rw [Draft.lastTime, hlist, List.getLast?_append_cons, List.getLast?_singleton, Option.map_some, Option.getD_some,
      Board.time, htime]
    omega
  · rw [k.get_final hl]
    exact k.timed.noWait l hl

/-- Jumps go to words of SETs and to that of the END. -/
theorem jump_word (h : k.addressed.encode = .ok words) {i : Nat} {always : Bool} {channel threshold address : Nat}
    (hop : operationAt? words i = some (.jump always channel threshold address)) :
    ∃ a, address = a + 1 ∧ ((∃ v, operationAt? words a = some (.set v)) ∨ operationAt? words a = some .stop) := by
  rw [operationAt?_eq h, Option.map_eq_some_iff] at hop
  obtain ⟨x, hx, hlink⟩ := hop
  have hxmem := List.mem_of_getElem? hx
  obtain ⟨ch, th, g, hact, rfl⟩ : ∃ ch th g, (k.final.board.get x).action = .jump always ch th g ∧
      address = k.final.list.idxOf g + 1 := by
    unfold Draft.linked at hlink
    split at hlink <;> cases hlink
    exact ⟨_, _, _, ‹_›, rfl⟩
  have hmem : x ∈ k.settled.list := by
    rcases k.covers_final.2.mem_or_target? x hxmem with hmem | hnone
    · exact hmem
    · rw [Instruction.target?, hact] at hnone
      cases hnone
  rw [k.get_final hmem] at hact
  obtain ⟨-, -, hg, hland⟩ := k.timed.jumps x hmem _ _ _ _ hact
  have hgmem := k.covers_final.2.subset g hg
  refine ⟨k.final.list.idxOf g, rfl, ?_⟩
  rw [operationAt?_idxOf h hgmem]
  rcases hland with hset | hstop
  · rw [← k.get_final hg] at hset
    obtain ⟨e, he⟩ := Instruction.isSet_iff.1 hset
    have hdrive : ∃ v, k.final.linked s.hardware.polarityMask g = .set v := by
      unfold Draft.linked
      rw [he]
      exact ⟨_, rfl⟩
    obtain ⟨v, hv⟩ := hdrive
    exact .inl ⟨v, congrArg some hv⟩
  · rw [← k.get_final hg] at hstop
    exact .inr (congrArg some (Draft.linked_eq_stop.2 hstop))

theorem compiled_of_outcome {c : Compiled} (h : (s.compile variant o).outcome = .ok c)
    (hk : k.addressed.encode = .ok c.words) : c = k.compiled c.words := by
  rw [k.outcome_compile, Attempt.outcome_ofExcept_ok hk] at h
  exact (Except.ok.inj h).symm

end Layout

/-- The last word is the only END, the words take as many ticks as reported, jumps go to SETs and to the END, and no run
leaves the words, whatever the counts, the idle state and the limits are. -/
structure Compiled.Confined (c : Compiled) : Prop where
  ending : ∃ init last, c.words = init ++ [last] ∧ Operation.ofWord last = .stop ∧
    ∀ w ∈ init, Operation.ofWord w ≠ .stop
  jumps : ∀ i always channel threshold address,
    operationAt? c.words i = some (.jump always channel threshold address) → ∃ a, address = a + 1 ∧
      ((∃ v, operationAt? c.words a = some (.set v)) ∨ operationAt? c.words a = some .stop)
  length : c.report.length = .ofNat (c.words.map fun w => (Operation.ofWord w).width).sum
  runs : ∀ (m : Machine) (idle : Int), m.words = c.words.toArray → (∃ st, m.run (.initial idle) = .ok st) ∧
    ∀ n, ∃ st, m.runFor n (.initial idle) = .ok st ∧ 1 ≤ st.pc ∧ st.pc ≤ c.words.length

/-- Compiled sequences stay in their code. -/
theorem Sequence.confined_of_compile [Collation] {s : Sequence} {variant : Binary64} {o : Options} {c : Compiled}
    (h : (s.compile variant o).outcome = .ok c) : c.Confined := by
  obtain ⟨k, hk⟩ := Layout.exists_of_compile h
  have hreal := Layout.realizes hk
  refine ⟨?_, fun _ _ _ _ _ hop => Layout.jump_word hk hop, ?_, fun m idle hm => ?_⟩
  · obtain ⟨init, hlist⟩ := k.last_final
    have hword : ∀ l ∈ k.final.list, Operation.ofWord (k.final.linked s.hardware.polarityMask l).toWord = .stop ↔
        l = k.frame.final := fun l hl => by
      rw [Operation.ofWord_toWord (hreal.encodable l hl).fits, Layout.linked_eq_stop_iff hl]
    have hnodup := k.scheduled_final.nodup
    refine ⟨init.map fun l => (k.final.linked s.hardware.polarityMask l).toWord,
      (k.final.linked s.hardware.polarityMask k.frame.final).toWord, ?_, ?_, fun w hw => ?_⟩
    · rw [hreal.words, hlist, List.map_append, List.map_singleton]
    · exact (hword _ (by rw [hlist]; simp)).2 rfl
    · obtain ⟨l, hl, rfl⟩ := List.mem_map.1 hw
      intro hstop
      rw [(hword l (by rw [hlist]; simp [hl])).1 hstop] at hl
      rw [hlist] at hnodup
      exact (List.nodup_append.1 hnodup).2.2 _ hl _ (List.mem_singleton.2 rfl) rfl
  · rw [Layout.compiled_of_outcome h hk]
    exact congrArg Binary64.ofInt (Layout.sum_width_words hk).symm
  · have hstart := hreal.agrees_initial idle
    have hrun : ∀ n, ∃ st, m.runFor n (.initial idle) = .ok st ∧ st.Within c.words.length := fun n =>
      hreal.runFor_within hm n hstart (hstart.within hreal rfl)
    obtain ⟨st, hst, -⟩ := hrun (m.maxTicks - 0 + 1)
    exact ⟨⟨st, hst⟩, hrun⟩

theorem Bench.gated_confined : ∃ c, (gated.compile 0 quick).outcome = .ok c ∧ c.Confined := by
  obtain ⟨c, h⟩ := exists_compile_gated
  exact ⟨c, h, Sequence.confined_of_compile h⟩

end PulseSequencer
