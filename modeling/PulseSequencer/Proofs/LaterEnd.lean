import PulseSequencer.Proofs.Mirror
import PulseSequencer.Proofs.Walk

/-!
# Lists with a later END

A list and the same list with its END moved back are told apart by how long their runs take, and by nothing else.

* `Machine.taken`, `Machine.Recorded` : the jumps of a run, and what a step adds to the records;
* `Draft.Covers.idxOf_eq` : words up to an instruction are as many as its tick asks for;
* `Draft.Beside`, `Draft.Beside.step` : walks along both lists, and one tick of both;
* `Draft.exists_alike` : whole runs.
-/

namespace PulseSequencer

/-! ## Records -/

namespace Machine

variable {m : Machine} {s s' : State} {go : Bool}

/-- Whether a visit is that of a JUMP that is taken. -/
def takes (m : Machine) (v : Visit) : Bool :=
  match (m.wordAt? v.address).map Operation.ofWord with
  | some (.jump always channel threshold _) => always || decide ((threshold : Int) ≤ m.counts channel v.tick)
  | _ => false

/-- The JUMPs that a run has taken, the one past the limit included. -/
def taken (m : Machine) (s : State) : List Visit := s.executed.toList.filter m.takes

/-- What a step adds to the records: a new value of the bus, and a jump taken. -/
structure Recorded (m : Machine) (s s' : State) : Prop where
  changes : s'.changes = if s'.bus = s.bus then s.changes else s.changes.push ⟨s.tick, s'.bus.toNat⟩
  taken : m.taken s' = if s'.jumps = s.jumps then m.taken s else m.taken s ++ [⟨s.tick, s.pc⟩]

theorem recorded_execute {w : Word} (hw : m.wordAt? s.pc = some w) : m.Recorded s (m.execute (.ofWord w) s).2 := by
  have htaken : ∀ {s' : State}, s'.executed = s.executed.push ⟨s.tick, s.pc⟩ →
      m.taken s' = if m.takes ⟨s.tick, s.pc⟩ then m.taken s ++ [⟨s.tick, s.pc⟩] else m.taken s := fun {s'} hs' => by
    rw [taken, taken, hs', Array.toList_push, List.filter_append, List.filter_cons, List.filter_nil]
    split <;> simp
  cases hop : Operation.ofWord w with
  | wait duration =>
    have htakes : m.takes ⟨s.tick, s.pc⟩ = false := by simp [takes, hw, hop]
    exact ⟨by simp [execute], by rw [htaken rfl, htakes]; simp [execute]⟩
  | set value =>
    have htakes : m.takes ⟨s.tick, s.pc⟩ = false := by simp [takes, hw, hop]
    refine ⟨?_, by rw [htaken rfl, htakes]; simp [execute]⟩
    by_cases hvalue : (value : Int) = s.bus <;> simp [execute, hvalue]
  | stop =>
    have htakes : m.takes ⟨s.tick, s.pc⟩ = false := by simp [takes, hw, hop]
    exact ⟨by simp [execute], by rw [htaken rfl, htakes]; simp [execute]⟩
  | jump always channel threshold address =>
    have htakes : m.takes ⟨s.tick, s.pc⟩ = (always || decide ((threshold : Int) ≤ m.counts channel s.tick)) := by
      simp [takes, hw, hop]
    simp only [execute]
    split_ifs with htest hlimit
    · refine ⟨by simp, ?_⟩
      rw [htaken rfl, htakes, htest]
      simp
    · refine ⟨by simp, ?_⟩
      rw [htaken rfl, htakes, htest]
      simp
    · refine ⟨by simp, ?_⟩
      rw [htaken rfl, htakes, if_neg htest]
      simp

theorem recorded_of_step (h : m.step s = .ok (go, s')) : m.Recorded s s' := by
  obtain ⟨-, -, rfl⟩ | ⟨-, -, -, rfl⟩ | ⟨-, -, -, -, rfl⟩ | ⟨-, -, -, w, hw, hex⟩ := step_cases h
  · exact ⟨by simp, by simp⟩
  · exact ⟨by simp, by simp [taken]⟩
  · exact ⟨by simp, by simp [taken]⟩
  · have hrec := recorded_execute (m := m) hw
    rwa [hex] at hrec

end Machine

namespace Draft

/-! ## Words up to an instruction -/

theorem Covers.ne_of_time_le {b : Board} {last : Int} {held : Option Label} {x l : Label} {ls filled : List Label}
    (h : Covers b last held ls filled) (hx : b.time x ≤ last) (hl : l ∈ ls) : x ≠ l := by
  rintro rfl
  exact absurd (h.lt_time x (h.subset x hl)) (Int.not_lt.2 hx)

/-- The words up to an instruction depend on the times up to it. -/
theorem Covers.idxOf_eq {b b' : Board} {last : Int} {held : Option Label} {l : Label} {ls filled : List Label}
    (h : Covers b last held ls filled) :
    ∀ {held' : Option Label} {pre post filled' : List Label}, ls = pre ++ l :: post →
      Covers b' last held' ls filled' → (∀ x ∈ pre ++ [l], b'.time x = b.time x) →
      filled'.idxOf l = filled.idxOf l := by
  -- the tick of the next instruction says which of the constructors the other cover has
  induction h with
  | nil => exact fun hls => absurd hls (by simp)
  | @next last held y ls filled htime rest ih =>
    intro held' pre post filled' hls h' hsame
    cases pre with
    | nil =>
      obtain ⟨rfl, rfl⟩ := List.cons.inj hls
      have hy := hsame y (by simp)
      cases h' with
      | next => rw [List.idxOf_cons_self, List.idxOf_cons_self]
      | hold htime' => omega
      | wait hn htime' => omega
    | cons x pre =>
      obtain ⟨rfl, rfl⟩ := List.cons.inj hls
      have hy := hsame y (by simp)
      have hne : y ≠ l := rest.ne_of_time_le le_rfl (by simp)
      cases h' with
      | next htime' rest' =>
        rw [hy] at rest'
        rw [List.idxOf_cons_ne _ hne, List.idxOf_cons_ne _ hne,
          ih rfl rest' fun x hx => hsame x (List.mem_cons_of_mem _ hx)]
      | hold htime' => omega
      | wait hn htime' => omega
  | @hold last g x y ls filled htime hlt hx rest ih =>
    intro held' pre post filled' hls h' hsame
    have hy := hsame y (by cases pre <;> cases hls <;> simp)
    have hmem : l ∈ y :: ls := by rw [hls]; simp
    have hne : x ≠ l := rest.ne_of_time_le (by rw [Board.time, hx]) hmem
    cases h' with
    | next htime' => omega
    | hold htime' hlt' hx' rest' =>
      have hne' := rest'.ne_of_time_le (by rw [Board.time, hx']) hmem
      rw [List.idxOf_cons_ne _ hne, List.idxOf_cons_ne _ hne', ih hls rest' hsame]
    | wait hn htime' => omega
  | @wait last n held x y ls filled hn htime hlt hx rest ih =>
    intro held' pre post filled' hls h' hsame
    have hy := hsame y (by cases pre <;> cases hls <;> simp)
    have hmem : l ∈ y :: ls := by rw [hls]; simp
    have hne : x ≠ l := rest.ne_of_time_le (by rw [Board.time, hx]; simp only; omega) hmem
    cases h' with
    | next htime' => omega
    | hold htime' => omega
    | @wait _ n' _ x' _ _ _ hn' htime' hlt' hx' rest' =>
      have hne' := rest'.ne_of_time_le (by rw [Board.time, hx']; simp only; omega) hmem
      have hlen : n' = n := by omega
      rw [hlen] at rest'
      rw [List.idxOf_cons_ne _ hne, List.idxOf_cons_ne _ hne', ih hls rest' hsame]

/-- A machine about to execute an instruction of the list stands in front of its word. -/
theorem Agrees.pc_eq {d f : Draft} {polarity : Int} {words : List Word} {s : Machine.State} {w : Walk} {l : Label}
    (hag : d.Agrees f polarity s w) (h : d.Realizes f polarity words) (hrun : w.halted = none)
    (hat : d.at? w.position = some l) : s.pc = f.list.idxOf l + 1 := by
  obtain ⟨pre, ls, done, rest, held, hfol⟩ := hag.follows (hag.halted.trans hrun)
  have hl : l ∈ d.list := List.mem_of_find?_eq_some hat
  have htime : d.board.time l = w.position := by simpa using List.find?_some hat
  have hget : f.board.get l = d.board.get l := h.board.get_eq l (h.timed.valid l hl)
  have hposition : f.board.time l = w.position := by rw [Board.time, hget, ← htime, Board.time]
  have hls : l ∈ ls := by
    rw [hfol.list, List.mem_append] at hl
    refine hl.resolve_left fun hpre => ?_
    exact absurd (hfol.passed l hpre) (by omega)
  have hdelay : s.delay = 0 := by
    have := hfol.covers.lt_time l (hfol.covers.subset l hls)
    omega
  have hcov := hfol.covers
  have hinc := h.covers.increasing
  rw [hdelay] at hcov
  -- nothing but the instruction itself can come next
  have hnext : ∃ rest', rest = l :: rest' := by
    cases hcov with
    | nil => cases hls
    | @next _ _ y ls filled htime' rest' =>
      rcases List.mem_cons.1 hls with rfl | hls
      · exact ⟨_, rfl⟩
      · have := rest'.lt_time l (rest'.subset l hls)
        push_cast at htime'
        omega
    | hold htime' hlt hx rest' =>
      have := rest'.lt_time l (rest'.subset l hls)
      push_cast at this
      omega
    | wait hn htime' hlt hx rest' =>
      have := rest'.lt_time l (rest'.subset l hls)
      push_cast at this
      omega
  obtain ⟨rest', rfl⟩ := hnext
  have hnot : l ∉ done := by
    rw [hfol.filled, List.pairwise_append] at hinc
    exact fun hmem => lt_irrefl _ (hinc.2.2 l hmem l List.mem_cons_self)
  rw [hfol.pc, hfol.filled, List.idxOf_append_of_notMem hnot, List.idxOf_cons_self, Nat.add_zero]

/-! ## Walks -/

/-- Walks along two lists with ENDs at `e` and `e'`. -/
inductive Beside (e e' : Int) : Walk → Walk → Prop
  /-- Neither has come to the first END, or both have halted on the way. -/
  | same {w : Walk} (hpos : w.halted = none → w.position < e) : Beside e e' w w
  /-- The first walk is about to end. -/
  | ending {w : Walk} {p : Int} (hrun : w.halted = none) (hpos : w.position = e) (hle : e ≤ p) (hle' : p ≤ e') :
      Beside e e' w { w with position := p }
  /-- The first walk has ended. -/
  | past {w w' : Walk} (hended : w.halted = some .ended)
      (hpos : w'.halted = none ∧ e ≤ w'.position ∧ w'.position ≤ e' ∨ w'.halted = some .ended)
      (hbus : w'.bus = w.bus) (hjumps : w'.jumps = w.jumps) (htick : w.tick ≤ w'.tick) : Beside e e' w w'

namespace Beside

variable {e e' : Int} {w w' : Walk}

theorem of_le (hrun : w.halted = none) (hle : w.position ≤ e) (he : e ≤ e') : Beside e e' w w := by
  rcases Int.lt_or_eq_of_le hle with hlt | heq
  · exact .same fun _ => hlt
  · exact .ending hrun heq heq.ge (heq.trans_le he)

theorem bus_eq (h : Beside e e' w w') : w'.bus = w.bus := by
  cases h with
  | same | ending => rfl
  | past _ _ hbus => exact hbus

theorem jumps_eq (h : Beside e e' w w') : w'.jumps = w.jumps := by
  cases h with
  | same | ending => rfl
  | past _ _ _ hjumps => exact hjumps

theorem tick_le (h : Beside e e' w w') : w.tick ≤ w'.tick := by
  cases h with
  | same | ending => exact le_rfl
  | past _ _ _ _ htick => exact htick

/-- When the second walk halts, it does so like the first one. -/
theorem halted_eq (h : Beside e e' w w') (hhalted : w'.halted ≠ none) : w'.halted = w.halted := by
  cases h with
  | same | ending => rfl
  | past hended hpos =>
    rcases hpos with ⟨hrun, -⟩ | hended'
    · exact absurd hrun hhalted
    · rw [hended, hended']

end Beside

section LaterEnd

variable {d d' : Draft} {z : Label} {e e' : Int} {S : Set Label} {polarity : Int} {counts : Nat → Nat → Int}
  {maxJumps maxTicks : Nat} {w w' : Walk} {p : Int} {l : Label}

/-- A jump is taken at an instruction of the list. -/
theorem exists_of_jumps_ne (h : (d.walkStep polarity counts maxJumps maxTicks w).jumps ≠ w.jumps) :
    w.halted = none ∧ ∃ l, d.at? w.position = some l := by
  have hrun : w.halted = none := by
    by_contra hhalted
    rw [walkStep_of_halted hhalted] at h
    exact h rfl
  refine ⟨hrun, ?_⟩
  cases hat : d.at? w.position with
  | none =>
    simp only [walkStep, hat, hrun, Option.map_none, Option.isSome_none, Bool.false_eq_true, if_false] at h
    split_ifs at h <;> exact absurd rfl h
  | some l => exact ⟨l, rfl⟩

theorem Mirrored.list_id (h : d.Mirrored id e' S d') : d'.list = d.list := by rw [h.list, List.map_id]

theorem Mirrored.action_id (h : d.Mirrored id e' S d') (hl : l ∈ d.list) :
    (d'.board.get l).action = (d.board.get l).action := by
  have hcell := h.board.cell l (h.live l hl)
  rw [id_eq] at hcell
  rw [hcell]
  simp only [Instruction.mirror, Instruction.retarget]
  cases hact : (d.board.get l).action <;> simp [hact]

section Closes

variable (h : d.Mirrored id e' S d') (hc : d.board.Closes z e d.list) (he : e ≤ e')

include h hc

theorem Mirrored.time_id (hl : l ∈ d.list) (hne : l ≠ z) : d'.board.time l = d.board.time l := by
  have hcell := h.board.cell l (h.live l hl)
  rw [id_eq] at hcell
  rw [Board.time, hcell, Instruction.time_mirror (hc.other l hl hne).1, Board.time]

theorem Mirrored.time_end : d'.board.time z = e' := by
  have hcell := h.board.cell z (h.live z hc.mem)
  rw [id_eq] at hcell
  rw [Board.time, hcell, Instruction.mirror, if_pos hc.stop]

/-- Between the ENDs there is nothing. -/
theorem Mirrored.at?_between (hp : e ≤ p) (hp' : p < e') : d'.at? p = none := by
  refine Timed.at?_eq_none fun l hl => ?_
  rw [h.list_id] at hl
  by_cases hl' : l = z
  · rw [hl', h.time_end hc]
    omega
  · rw [h.time_id hc hl hl']
    have := (hc.other l hl hl').2.2
    omega

/-- A tick of the second walk after the first END: it goes on, ends, or runs out of ticks. -/
theorem Mirrored.walkStep_between (hd' : d'.Timed) (hrun : w.halted = none) (hle : e ≤ w.position)
    (hle' : w.position ≤ e')
    (hlimit : (d'.walkStep polarity counts maxJumps maxTicks w).halted ≠ some .tickLimit) :
    w.tick < maxTicks ∧
    ((d'.walkStep polarity counts maxJumps maxTicks w).halted = none ∧
        e ≤ (d'.walkStep polarity counts maxJumps maxTicks w).position ∧
        (d'.walkStep polarity counts maxJumps maxTicks w).position ≤ e' ∨
      (d'.walkStep polarity counts maxJumps maxTicks w).halted = some .ended) ∧
    (d'.walkStep polarity counts maxJumps maxTicks w).bus = w.bus ∧
    (d'.walkStep polarity counts maxJumps maxTicks w).jumps = w.jumps ∧
    (d'.walkStep polarity counts maxJumps maxTicks w).tick = w.tick + 1 := by
  unfold walkStep at hlimit ⊢
  simp only [hrun, Option.isSome_none, Bool.false_eq_true, if_false] at hlimit ⊢
  by_cases ht : maxTicks ≤ w.tick
  · rw [if_pos ht] at hlimit
    exact absurd rfl hlimit
  rw [if_neg ht]
  refine ⟨Nat.lt_of_not_le ht, ?_⟩
  rcases Int.lt_or_eq_of_le hle' with hlt | heq
  · rw [h.at?_between hc hle hlt]
    exact ⟨.inl ⟨rfl, Int.le_add_one hle, hlt⟩, rfl, rfl, rfl⟩
  · have hat : d'.at? w.position = some z := by
      rw [heq, ← h.time_end hc]
      exact hd'.at?_time (by rw [h.list_id]; exact hc.mem)
    rw [hat, Option.map_some, h.action_id hc.mem, hc.stop]
    exact ⟨.inr rfl, rfl, rfl, rfl⟩

include he

/-- Up to the first END, the same instructions stand at the same ticks. -/
theorem Mirrored.at?_id (hp : p < e) : d'.at? p = d.at? p := by
  rw [at?, at?, h.list_id]
  refine List.find?_congr fun l hl => ?_
  by_cases hl' : l = z
  · rw [hl', h.time_end hc, hc.time, beq_eq_false_iff_ne.2 (by omega), beq_eq_false_iff_ne.2 (by omega)]
  · rw [h.time_id hc hl hl']

/-- One tick of the same walk along both lists. -/
theorem Beside.step_same (hpos : w.halted = none → w.position < e)
    (htarget : ∀ l ∈ d.list, ∀ g, (d.board.get l).target? = some g → g ∈ d.list) :
    Beside e e' (d.walkStep polarity counts maxJumps maxTicks w) (d'.walkStep polarity counts maxJumps maxTicks w) := by
  by_cases hrun : w.halted = none
  swap
  · rw [walkStep_of_halted hrun, walkStep_of_halted hrun]
    exact .same hpos
  have hlt := hpos hrun
  simp only [walkStep, hrun, Option.isSome_none, Bool.false_eq_true, if_false]
  by_cases ht : maxTicks ≤ w.tick
  · rw [if_pos ht, if_pos ht]
    exact .same fun hrun => by cases hrun
  rw [if_neg ht, if_neg ht]
  have hnext : ∀ {v : Walk}, v.halted = none → v.position = w.position + 1 → Beside e e' v v := fun hv hv' =>
    .of_le hv (by omega) he
  rw [h.at?_id hc he hlt]
  cases hat : d.at? w.position with
  | none => exact hnext rfl rfl
  | some l =>
    have hl : l ∈ d.list := List.mem_of_find?_eq_some hat
    have htime : d.board.time l = w.position := by simpa using List.find?_some hat
    rw [Option.map_some, Option.map_some, h.action_id hl]
    cases hact : (d.board.get l).action with
    | set drive => exact hnext rfl rfl
    | wait duration => exact hnext rfl rfl
    | stop =>
      have hne : l ≠ z := by
        rintro rfl
        rw [hc.time] at htime
        omega
      exact absurd hact (hc.other l hl hne).1
    | jump always channel threshold g =>
      simp only
      by_cases htest : (always || decide (threshold ≤ .finite (counts channel.toWhole.toNat w.tick))) = true
      swap
      · rw [if_neg htest, if_neg htest]
        exact hnext rfl rfl
      rw [if_pos htest, if_pos htest]
      by_cases hlimit : maxJumps < w.jumps + 1
      · rw [if_pos hlimit, if_pos hlimit]
        exact .same fun hrun => by cases hrun
      rw [if_neg hlimit, if_neg hlimit]
      -- a jump to the END takes each walk to its own one
      by_cases hg : g = z
      · rw [hg, hc.time, h.time_end hc]
        exact .ending rfl rfl he le_rfl
      · have hgl : g ∈ d.list := htarget l hl g (by rw [Instruction.target?, hact])
        rw [h.time_id hc hgl hg]
        exact .same fun _ => (hc.other g hgl hg).2.2

/-- One tick of both walks. What is seen of it is seen at the same tick. -/
theorem Beside.step (hd : d.Timed) (hd' : d'.Timed) (hw : Beside e e' w w')
    (hlimit : (d'.walkStep polarity counts maxJumps maxTicks w').halted ≠ some .tickLimit) :
    Beside e e' (d.walkStep polarity counts maxJumps maxTicks w) (d'.walkStep polarity counts maxJumps maxTicks w') ∧
      (w' = w ∧ (w.halted = none → w.position < e) ∨
        (d'.walkStep polarity counts maxJumps maxTicks w').bus = w'.bus ∧
          (d'.walkStep polarity counts maxJumps maxTicks w').jumps = w'.jumps) := by
  cases hw with
  | same hpos => exact ⟨Beside.step_same h hc he hpos fun l hl g hg => hd.closed hl hg, .inl ⟨rfl, hpos⟩⟩
  | ending hrun hpos hle hle' =>
    rename_i p
    have hrun' : ({ w with position := p } : Walk).halted = none := hrun
    obtain ⟨ht, hstate, hbus, hjumps, htick⟩ := h.walkStep_between hc hd' hrun' hle hle' hlimit
    refine ⟨?_, .inr ⟨hbus, hjumps⟩⟩
    have hat : d.at? w.position = some z := by
      rw [hpos, ← hc.time]
      exact hd.at?_time hc.mem
    have hfirst : d.walkStep polarity counts maxJumps maxTicks w =
        { w with position := w.position + 1, tick := w.tick + 1, halted := some .ended } := by
      simp only [walkStep, hrun, Option.isSome_none, Bool.false_eq_true, if_false, if_neg (Nat.not_le.2 ht), hat,
        Option.map_some, hc.stop]
    rw [hfirst]
    exact .past rfl hstate hbus hjumps htick.ge
  | past hended hpos hbus hjumps htick =>
    rw [walkStep_of_halted (d := d) (w := w) (by simp [hended])]
    rcases hpos with ⟨hrun, hle, hle'⟩ | hended'
    · obtain ⟨-, hstate, hbus', hjumps', htick'⟩ := h.walkStep_between hc hd' hrun hle hle' hlimit
      exact ⟨.past hended hstate (hbus'.trans hbus) (hjumps'.trans hjumps) (by omega), .inr ⟨hbus', hjumps'⟩⟩
    · rw [walkStep_of_halted (by simp [hended'])]
      exact ⟨.past hended (.inr hended') hbus hjumps htick, .inr ⟨rfl, rfl⟩⟩

end Closes

/-! ## Runs -/

section Runs

variable {f f' : Draft} {words words' : List Word}

/-- Up to the END, the words of both lists are at the same addresses. -/
theorem Mirrored.idxOf_id (h : d.Mirrored id e' S d') (hc : d.board.Closes z e d.list)
    (hr : d.Realizes f polarity words) (hr' : d'.Realizes f' polarity words') (hl : l ∈ d.list) (hne : l ≠ z) :
    f'.list.idxOf l = f.list.idxOf l := by
  obtain ⟨pre, post, hlist⟩ := List.append_of_mem hl
  have hcov' := hr'.covers
  rw [h.list_id] at hcov'
  refine hr.covers.idxOf_eq hlist hcov' fun x hx => ?_
  have hmem : x ∈ d.list := by
    rw [hlist]
    simp only [List.mem_append, List.mem_cons, List.not_mem_nil, or_false] at hx ⊢
    exact hx.imp_right .inl
  have hxz : x ≠ z := by
    rintro rfl
    rcases List.mem_append.1 hx with hpre | hlast
    · have hinc := hr.timed.increasing
      rw [hlist, List.pairwise_append] at hinc
      have hlt := hinc.2.2 x hpre l List.mem_cons_self
      rw [hc.time] at hlt
      exact absurd (hc.other l hl hne).2.2 (by omega)
    · exact hne (List.mem_singleton.1 hlast).symm
  have hmem' : x ∈ d'.list := by rwa [h.list_id]
  rw [Board.time, Board.time, hr.board.get_eq x (hr.timed.valid x hmem), hr'.board.get_eq x (hr'.timed.valid x hmem')]
  exact h.time_id hc hmem hxz

/-- Both runs of a walk are at the same address when it is at an instruction before the END. -/
theorem Mirrored.pc_id (h : d.Mirrored id e' S d') (hc : d.board.Closes z e d.list) (he : e ≤ e')
    (hr : d.Realizes f polarity words) (hr' : d'.Realizes f' polarity words') {s s' : Machine.State} {w : Walk}
    (hag : d.Agrees f polarity s w) (hag' : d'.Agrees f' polarity s' w) (hrun : w.halted = none) (hpos : w.position < e)
    {l : Label} (hat : d.at? w.position = some l) : s'.pc = s.pc := by
  have htime : d.board.time l = w.position := by simpa using List.find?_some hat
  have hne : l ≠ z := by
    rintro rfl
    rw [hc.time] at htime
    omega
  have hat' : d'.at? w.position = some l := by rw [h.at?_id hc he hpos, hat]
  rw [hag.pc_eq hr hrun hat, hag'.pc_eq hr' hrun hat', h.idxOf_id hc hr hr' (List.mem_of_find?_eq_some hat) hne]

/-- Runs that have shown the same, the second one later if at all. -/
structure Alike (m m' : Machine) (r r' : Machine.State) : Prop where
  changes : r'.changes = r.changes
  taken : m'.taken r' = m.taken r
  tick : r.tick ≤ r'.tick
  halted : r'.halted ≠ none → r'.halted = r.halted

/-- Runs of both programs show the same, unless the second one runs out of ticks. -/
theorem exists_alike (h : d.Mirrored id e' S d') (hc : d.board.Closes z e d.list) (he : e ≤ e')
    (hr : d.Realizes f polarity words) (hr' : d'.Realizes f' polarity words') (n : Nat) :
    ∀ {s s' : Machine.State} {w w' : Walk}, d.Agrees f polarity s w → d'.Agrees f' polarity s' w' → Beside e e' w w' →
      let m : Machine := ⟨words.toArray, counts, maxJumps, maxTicks⟩
      let m' : Machine := ⟨words'.toArray, counts, maxJumps, maxTicks⟩
      s'.changes = s.changes → m'.taken s' = m.taken s →
      ∃ r r', m.runFor n s = .ok r ∧ m'.runFor n s' = .ok r' ∧
        (r'.halted ≠ some .tickLimit → Alike m m' r r') := by
  induction n with
  | zero =>
    intro s s' w w' hag hag' hw m m' hchanges htaken
    refine ⟨s, s', rfl, rfl, fun _ => ⟨hchanges, htaken, ?_, ?_⟩⟩
    · rw [hag.tick, hag'.tick]
      exact hw.tick_le
    · rw [hag.halted, hag'.halted]
      exact hw.halted_eq
  | succ n ih =>
    intro s s' w w' hag hag' hw m m' hchanges htaken
    obtain ⟨go, s₁, hstep, -, hag₁⟩ := hr.step_agrees (m := m) rfl hag
    obtain ⟨go', s₁', hstep', -, hag₁'⟩ := hr'.step_agrees (m := m') rfl hag'
    rw [Machine.runFor_succ hstep, Machine.runFor_succ hstep']
    by_cases hlimit : s₁'.halted = some .tickLimit
    · obtain ⟨r, hrun, -⟩ := hr.runFor_agrees (m := m) rfl n hag₁
      exact ⟨r, s₁', hrun, Machine.runFor_of_halted (by simp [hlimit]) n, fun hne => absurd hlimit hne⟩
    rw [hag₁'.halted] at hlimit
    obtain ⟨hw₁, hseen⟩ := hw.step h hc he hr.timed hr'.timed hlimit
    have hrec := Machine.recorded_of_step hstep
    have hrec' := Machine.recorded_of_step hstep'
    have hbus : s₁'.bus = s₁.bus ∧ s'.bus = s.bus := by
      rw [hag₁.bus, hag₁'.bus, hag.bus, hag'.bus]
      exact ⟨hw₁.bus_eq, hw.bus_eq⟩
    have hjumps : s₁'.jumps = s₁.jumps ∧ s'.jumps = s.jumps := by
      rw [hag₁.jumps, hag₁'.jumps, hag.jumps, hag'.jumps]
      exact ⟨hw₁.jumps_eq, hw.jumps_eq⟩
    refine ih hag₁ hag₁' hw₁ ?_ ?_
    · rw [hrec.changes, hrec'.changes, hbus.1, hbus.2, hchanges]
      rcases hseen with ⟨rfl, -⟩ | ⟨hsame, -⟩
      · rw [hag.tick, hag'.tick]
      · rw [← hag₁'.bus, ← hag'.bus, hbus.1, hbus.2] at hsame
        rw [if_pos hsame, if_pos hsame]
    · rw [hrec.taken, hrec'.taken, hjumps.1, hjumps.2, htaken]
      by_cases hsame : s₁.jumps = s.jumps
      · rw [if_pos hsame, if_pos hsame]
      -- a jump is taken: both walks are at the same instruction before the END
      rcases hseen with ⟨rfl, hpos⟩ | ⟨-, hsame'⟩
      · rw [hag₁.jumps, hag.jumps] at hsame
        obtain ⟨hrun, l, hat⟩ := exists_of_jumps_ne hsame
        rw [hag.tick, hag'.tick, h.pc_id hc he hr hr' hag hag' hrun (hpos hrun) hat]
      · rw [← hag₁'.jumps, ← hag'.jumps, hjumps.1, hjumps.2] at hsame'
        exact absurd hsame' hsame

end Runs

end LaterEnd

end Draft

end PulseSequencer
