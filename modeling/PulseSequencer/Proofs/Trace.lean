import PulseSequencer.Proofs.Machine

/-!
# Traces of runs

Whatever the words are, a run ends, and its records tell what it did: which word was executed at which tick, and when
the bus took which value.

* `Machine.steps` : calls of a step, which a run can follow; `Machine.steps_bind_run` : it ends as if they had not been
  made;
* `Machine.Loop`, `Machine.loop_run` : a run is the loop of steps until one of them ends it;
* `Machine.Logged`, `Machine.Logged.of_step` : what the records say of a state, which every step keeps;
* `Machine.Later`, `Machine.Later.of_step` : the records only grow;
* `Machine.Faithful`, `Machine.run_faithful` : the trace of a run.
-/

namespace PulseSequencer.Machine

variable {m : Machine} {idle : Int} {s s' s'' : State} {go : Bool}

/-! ## Calls of a step -/

/-- So many steps, whatever they answer. -/
def steps (m : Machine) : Nat → State → Except Stray State
  | 0, s => .ok s
  | n + 1, s => m.step s >>= fun answer => m.steps n answer.2

theorem steps_succ (h : m.step s = .ok (go, s')) (n : Nat) : m.steps (n + 1) s = m.steps n s' := by
  rw [steps, h]
  rfl

theorem steps_succ_eq_ok {n : Nat} (h : m.steps (n + 1) s = .ok s') :
    ∃ go mid, m.step s = .ok (go, mid) ∧ m.steps n mid = .ok s' := by
  rw [steps] at h
  cases hstep : m.step s with
  | error e =>
    rw [hstep] at h
    cases h
  | ok answer =>
    rw [hstep] at h
    exact ⟨answer.1, answer.2, rfl, h⟩

theorem steps_of_halted (h : s.halted ≠ none) (n : Nat) : m.steps n s = .ok s := by
  induction n with
  | zero => rfl
  | succ n ih => rw [steps_succ (step_of_halted h), ih]

theorem steps_add (n k : Nat) : ∀ s, m.steps (n + k) s = m.steps n s >>= m.steps k := by
  induction n with
  | zero =>
    intro s
    rw [Nat.zero_add]
    rfl
  | succ n ih =>
    intro s
    rw [Nat.succ_add, steps, steps]
    cases m.step s with
    | error e => rfl
    | ok answer => exact ih answer.2

/-- A run of so many steps makes no more of them once the machine has halted, where further steps would do nothing. -/
theorem runFor_eq_steps (n : Nat) : ∀ s, m.runFor n s = m.steps n s := by
  induction n with
  | zero => exact fun _ => rfl
  | succ n ih =>
    intro s
    cases hstep : m.step s with
    | error e =>
      rw [runFor, steps, hstep]
      rfl
    | ok answer => rw [runFor_succ hstep, steps_succ hstep, ih]

/-- A run can be taken up after a step. -/
theorem run_of_step (h : m.step s = .ok (go, s')) : m.run s' = m.run s := by
  rw [run, run, runFor_succ h]
  cases go with
  | false => rw [runFor_of_halted (halted_of_step h), runFor_of_halted (halted_of_step h)]
  | true =>
    obtain ⟨hlt, htick⟩ := tick_of_step h
    rw [show m.maxTicks - s'.tick + 1 = m.maxTicks - s.tick by omega]

theorem steps_bind_run (n : Nat) : ∀ s, m.steps n s >>= m.run = m.run s := by
  induction n with
  | zero => exact fun _ => rfl
  | succ n ih =>
    intro s
    cases hstep : m.step s with
    | error e =>
      rw [steps, hstep, run, runFor, hstep]
      rfl
    | ok answer => rw [steps_succ hstep, ih, run_of_step hstep]

/-! ## The loop -/

/-- Steps one after the other until one ends the run. No bound is set on them. -/
inductive Loop (m : Machine) : State → Except Stray State → Prop
  | over {s s' : State} : m.step s = .ok (false, s') → Loop m s (.ok s')
  | on {s s' : State} {r : Except Stray State} : m.step s = .ok (true, s') → Loop m s' r → Loop m s r
  | astray {s : State} {e : Stray} : m.step s = .error e → Loop m s (.error e)

/-- Every step that goes on takes one of the ticks below the limit, so their number bounds the loop. -/
theorem loop_runFor {n : Nat} : ∀ {s : State}, m.maxTicks - s.tick < n → m.Loop s (m.runFor n s) := by
  induction n with
  | zero => exact fun hn => absurd hn (Nat.not_lt_zero _)
  | succ n ih =>
    intro s hn
    rw [runFor]
    split
    · rename_i e hstep
      exact .astray hstep
    · rename_i s' hstep
      obtain ⟨hlt, htick⟩ := tick_of_step hstep
      exact .on hstep (ih (by omega))
    · rename_i s' hstep
      exact .over hstep

theorem loop_run (m : Machine) (s : State) : m.Loop s (m.run s) := loop_runFor (Nat.lt_succ_self _)

/-! ## Records of a state -/

/-- The word of a visit has taken its ticks at the given one: one tick, and those of a wait. -/
def Due (m : Machine) (v : Visit) (tick : Nat) : Prop :=
  ∃ word, m.wordAt? v.address = some word ∧ tick = v.tick + (Operation.ofWord word).width

/-- The value of the last change, or the one before all changes. -/
def lastValue (idle : Int) (changes : List Change) : Int := (changes.getLast?.map fun c => (c.value : Int)).getD idle

/-- The value of the last change at or before a tick. -/
def valueAt (idle : Int) (changes : List Change) (tick : Nat) : Int :=
  lastValue idle (changes.filter fun c => c.tick ≤ tick)

@[simp] theorem lastValue_append_singleton (idle : Int) (cs : List Change) (c : Change) :
    lastValue idle (cs ++ [c]) = c.value := by
  simp [lastValue]

/-- The counters of a state keep to the limits, and its records are in order. -/
structure Logged (m : Machine) (idle : Int) (s : State) : Prop where
  tick_le : s.tick ≤ m.maxTicks
  jumps_le : s.jumps ≤ m.maxJumps + 1
  running : s.halted = none → s.jumps ≤ m.maxJumps
  spaced : s.executed.toList.IsChain fun v w => m.Due v w.tick
  awaited : ∀ v ∈ s.executed.toList.getLast?, m.Due v (s.tick + s.delay)
  ordered : s.changes.toList.Pairwise fun c e => c.tick < e.tick
  past : ∀ c ∈ s.changes.toList, c.tick < s.tick
  alternating : s.changes.toList.IsChain fun c e => c.value ≠ e.value
  first : ∀ c ∈ s.changes.toList.head?, (c.value : Int) ≠ idle
  bus : s.bus = lastValue idle s.changes.toList

namespace Logged

theorem initial (m : Machine) (idle : Int) : m.Logged idle (.initial idle) where
  tick_le := Nat.zero_le _
  jumps_le := Nat.zero_le _
  running _ := Nat.zero_le _
  spaced := .nil
  awaited := by simp [State.initial]
  ordered := .nil
  past := by simp [State.initial]
  alternating := .nil
  first := by simp [State.initial]
  bus := rfl

/-- A word is executed when the one before it has taken its ticks. -/
theorem spaced_push (h : m.Logged idle s) (hdelay : s.delay = 0) :
    (s.executed.push ⟨s.tick, s.pc⟩).toList.IsChain fun v w => m.Due v w.tick := by
  rw [Array.toList_push, List.isChain_append]
  refine ⟨h.spaced, List.isChain_singleton _, fun v hv w hw => ?_⟩
  have hw' : w = ⟨s.tick, s.pc⟩ := by simpa using hw.symm
  have hdue := h.awaited v hv
  rwa [hdelay, Nat.add_zero, ← show w.tick = s.tick by rw [hw']] at hdue

/-- A new value is recorded after the others, and differs from the last one. -/
theorem alternating_push (h : m.Logged idle s) {value : Nat} (hvalue : (value : Int) ≠ s.bus) :
    (s.changes.push ⟨s.tick, value⟩).toList.IsChain fun c e => c.value ≠ e.value := by
  rw [Array.toList_push, List.isChain_append]
  refine ⟨h.alternating, List.isChain_singleton _, fun c hc e he heq => hvalue ?_⟩
  have he' : e = ⟨s.tick, value⟩ := by simpa using he.symm
  rw [h.bus, lastValue, Option.mem_def.1 hc, Option.map_some, Option.getD_some, heq, he']

theorem first_push (h : m.Logged idle s) {value : Nat} (hvalue : (value : Int) ≠ s.bus) :
    ∀ c ∈ (s.changes.push ⟨s.tick, value⟩).toList.head?, (c.value : Int) ≠ idle := by
  intro c hc
  rw [Array.toList_push] at hc
  cases hlist : s.changes.toList with
  | nil =>
    have hc' : c = ⟨s.tick, value⟩ := by simpa [hlist] using hc.symm
    rw [h.bus, hlist] at hvalue
    rwa [hc']
  | cons e rest =>
    refine h.first c ?_
    rw [hlist] at hc ⊢
    exact hc

/-- Executing a word keeps the records in order. -/
theorem execute (h : m.Logged idle s) {w : Word} (hw : m.wordAt? s.pc = some w) (hhalted : s.halted = none)
    (ht : s.tick < m.maxTicks) (hdelay : s.delay = 0) : m.Logged idle (m.execute (.ofWord w) s).2 := by
  obtain ⟨hjumps, hrunning⟩ := jumps_execute m (.ofWord w) s (h.running hhalted)
  have hspaced := h.spaced_push hdelay
  have hawaited : ∀ v ∈ (s.executed.push ⟨s.tick, s.pc⟩).toList.getLast?,
      m.Due v ((m.execute (.ofWord w) s).2.tick + (m.execute (.ofWord w) s).2.delay) := by
    intro v hv
    have hv' : v = ⟨s.tick, s.pc⟩ := by simpa using hv.symm
    rw [tick_add_delay_execute m (.ofWord w) s hdelay, hv']
    exact ⟨w, hw, rfl⟩
  have hpast : ∀ c ∈ s.changes.toList, c.tick < s.tick + 1 := fun c hc => Nat.lt_succ_of_lt (h.past c hc)
  rw [← executed_execute m (.ofWord w) s] at hspaced hawaited
  -- the bus stays, or one change is recorded at the tick of the word
  rcases changes_execute m (.ofWord w) s with ⟨hbus, hchanges⟩ | ⟨value, hvalue, hbus, hchanges⟩
  · refine ⟨by rw [tick_execute]; exact ht, hjumps, hrunning, hspaced, hawaited, ?_, ?_, ?_, ?_, ?_⟩
    all_goals rw [hchanges]
    · exact h.ordered
    · rwa [tick_execute]
    · exact h.alternating
    · exact h.first
    · rw [hbus, h.bus]
  · refine ⟨by rw [tick_execute]; exact ht, hjumps, hrunning, hspaced, hawaited, ?_, ?_, ?_, ?_, ?_⟩
    all_goals rw [hchanges]
    · rw [Array.toList_push, List.pairwise_append]
      refine ⟨h.ordered, List.pairwise_singleton _ _, fun c hc e he => ?_⟩
      rw [List.mem_singleton.1 he]
      exact h.past c hc
    · intro c hc
      rw [Array.toList_push] at hc
      rw [tick_execute]
      rcases List.mem_append.1 hc with hc | hc
      · exact hpast c hc
      · rw [List.mem_singleton.1 hc]
        exact Nat.lt_succ_self _
    · exact h.alternating_push hvalue
    · exact h.first_push hvalue
    · rw [hbus, Array.toList_push, lastValue_append_singleton]

/-- Every step keeps the records in order. -/
theorem of_step (h : m.Logged idle s) (hstep : m.step s = .ok (go, s')) : m.Logged idle s' := by
  obtain ⟨-, -, rfl⟩ | ⟨-, -, -, rfl⟩ | ⟨-, ht, hdelay, -, rfl⟩ | ⟨hhalted, ht, hdelay, w, hw, hex⟩ := step_cases hstep
  · exact h
  · exact { h with running := fun hnone => absurd hnone (Option.some_ne_none _) }
  · refine { h with tick_le := ht, past := fun c hc => Nat.lt_succ_of_lt (h.past c hc), awaited := fun v hv => ?_ }
    have hdue := h.awaited v hv
    rwa [show s.tick + s.delay = s.tick + 1 + (s.delay - 1) by omega] at hdue
  · have hlogged := h.execute hw hhalted ht hdelay
    rwa [hex] at hlogged

theorem of_steps {n : Nat} : ∀ {s : State}, m.Logged idle s → m.steps n s = .ok s' → m.Logged idle s' := by
  induction n with
  | zero =>
    intro s h hrun
    cases hrun
    exact h
  | succ n ih =>
    intro s h hrun
    obtain ⟨go, mid, hstep, hrest⟩ := steps_succ_eq_ok hrun
    exact ih (h.of_step hstep) hrest

end Logged

/-! ## Records grow -/

/-- The second state comes later: what it has recorded beyond the first one happened since then. -/
structure Later (s s' : State) : Prop where
  tick_le : s.tick ≤ s'.tick
  changes : ∃ more, s'.changes.toList = s.changes.toList ++ more ∧ ∀ c ∈ more, s.tick ≤ c.tick

namespace Later

theorem refl (s : State) : Later s s := ⟨le_refl _, [], by simp, by simp⟩

theorem trans (h : Later s s') (h' : Later s' s'') : Later s s'' := by
  obtain ⟨more, hmore, htick⟩ := h.changes
  obtain ⟨more', hmore', htick'⟩ := h'.changes
  refine ⟨h.tick_le.trans h'.tick_le, more ++ more', by rw [hmore', hmore, List.append_assoc], fun c hc => ?_⟩
  rcases List.mem_append.1 hc with hc | hc
  · exact htick c hc
  · exact h.tick_le.trans (htick' c hc)

theorem of_step (h : m.step s = .ok (go, s')) : Later s s' := by
  obtain ⟨-, -, rfl⟩ | ⟨-, -, -, rfl⟩ | ⟨-, -, -, -, rfl⟩ | ⟨-, -, -, w, -, hex⟩ := step_cases h
  · exact refl s'
  · exact ⟨le_refl _, [], by simp, by simp⟩
  · exact ⟨Nat.le_succ _, [], by simp, by simp⟩
  · have htick := tick_execute m (.ofWord w) s
    have hchanges := changes_execute m (.ofWord w) s
    rw [hex] at htick hchanges
    refine ⟨by rw [htick]; exact Nat.le_succ _, ?_⟩
    rcases hchanges with ⟨-, hsame⟩ | ⟨value, -, -, hpush⟩
    · exact ⟨[], by rw [hsame, List.append_nil], by simp⟩
    · exact ⟨[⟨s.tick, value⟩], by rw [hpush, Array.toList_push], by simp⟩

theorem of_steps {n : Nat} : ∀ {s : State}, m.steps n s = .ok s' → Later s s' := by
  induction n with
  | zero =>
    intro s hrun
    cases hrun
    exact refl _
  | succ n ih =>
    intro s hrun
    obtain ⟨go, mid, hstep, hrest⟩ := steps_succ_eq_ok hrun
    exact (of_step hstep).trans (ih hrest)

/-- The changes up to a state are those before its tick. -/
theorem valueAt_eq (h : Later s s') (hlogged : m.Logged idle s) {t : Nat} (ht : s.tick = t + 1) :
    valueAt idle s'.changes.toList t = s.bus := by
  obtain ⟨more, hmore, hlater⟩ := h.changes
  have hold : s.changes.toList.filter (fun c => c.tick ≤ t) = s.changes.toList := by
    rw [List.filter_eq_self]
    intro c hc
    have := hlogged.past c hc
    exact decide_eq_true (by omega)
  have hnew : more.filter (fun c => c.tick ≤ t) = [] := by
    rw [List.filter_eq_nil_iff]
    intro c hc
    have := hlater c hc
    simp only [decide_eq_true_eq]
    omega
  rw [valueAt, hmore, List.filter_append, hold, hnew, List.append_nil, hlogged.bus]

end Later

/-- A machine that has not halted has passed a tick with every step. -/
theorem tick_of_steps {n : Nat} : ∀ {s : State}, m.steps n s = .ok s' →
    s'.tick ≤ s.tick + n ∧ (s'.halted = none → s'.tick = s.tick + n) := by
  induction n with
  | zero =>
    intro s hrun
    cases hrun
    exact ⟨le_refl _, fun _ => rfl⟩
  | succ n ih =>
    intro s hrun
    obtain ⟨go, mid, hstep, hrest⟩ := steps_succ_eq_ok hrun
    obtain ⟨hle, heq⟩ := ih hrest
    have hmid := tick_le_of_step hstep
    refine ⟨by omega, fun hnone => ?_⟩
    have hmid' : mid.tick = s.tick + 1 := by
      cases go with
      | true => exact (tick_of_step hstep).2
      | false =>
        -- a machine that has halted would have stayed so
        have hhalted := halted_of_step hstep
        rw [steps_of_halted hhalted] at hrest
        cases hrest
        exact absurd hnone hhalted
    rw [heq hnone, hmid']
    omega

/-! ## Whole runs -/

/-- The trace of a run: it keeps to the limits, visits come one after the other, and the changes tell the bus at every
tick. -/
structure Faithful (m : Machine) (idle : Int) (s : State) : Prop where
  halted : s.halted ≠ none
  ticks : s.tick ≤ m.maxTicks
  jumps : s.jumps ≤ m.maxJumps + 1
  visits : s.executed.toList.Pairwise fun v w => v.tick < w.tick
  spaced : s.executed.toList.IsChain fun v w => m.Due v w.tick
  changes : s.changes.toList.Pairwise fun c e => c.tick < e.tick
  alternating : s.changes.toList.IsChain fun c e => c.value ≠ e.value
  first : ∀ c, s.changes.toList.head? = some c → (c.value : Int) ≠ idle
  bus : ∀ t < s.tick, ∃ now, m.steps (t + 1) (.initial idle) = .ok now ∧ now.tick = t + 1 ∧
    now.bus = valueAt idle s.changes.toList t

theorem Due.lt {v : Visit} {tick : Nat} (h : m.Due v tick) : v.tick < tick := by
  obtain ⟨word, -, rfl⟩ := h
  cases Operation.ofWord word <;> simp only [Operation.width] <;> omega

/-- The state that a run of so many steps had after some of them. -/
theorem exists_steps_of_le {n k : Nat} (h : m.steps n s = .ok s') (hk : k ≤ n) :
    ∃ mid, m.steps k s = .ok mid ∧ m.steps (n - k) mid = .ok s' := by
  rw [← Nat.add_sub_cancel' hk, steps_add] at h
  cases hmid : m.steps k s with
  | error e =>
    rw [hmid] at h
    cases h
  | ok mid =>
    rw [hmid] at h
    exact ⟨mid, rfl, h⟩

/-- The step of every tick of a run was the last one of as many steps. -/
theorem exists_now {n t : Nat} (h : m.steps n (.initial idle) = .ok s) (hn : m.maxTicks < n) (ht : t < s.tick) :
    ∃ now, m.steps (t + 1) (.initial idle) = .ok now ∧ now.tick = t + 1 ∧ Later now s := by
  have hlogged := (Logged.initial m idle).of_steps h
  have hle := hlogged.tick_le
  obtain ⟨now, hnow, hrest⟩ := exists_steps_of_le h (show t + 1 ≤ n by omega)
  refine ⟨now, hnow, ?_, .of_steps hrest⟩
  obtain ⟨hnow1, hnow2⟩ := tick_of_steps hnow
  have hzero : (State.initial idle).tick = 0 := rfl
  by_cases hhalted : now.halted = none
  · rw [hnow2 hhalted, hzero, Nat.zero_add]
  · -- the machine halts with this step, so the run ends here
    rw [steps_of_halted hhalted] at hrest
    cases hrest
    omega

theorem faithful_of_run (h : m.run (.initial idle) = .ok s) : m.Faithful idle s := by
  have hsteps := h
  rw [run, runFor_eq_steps] at hsteps
  have hlogged := (Logged.initial m idle).of_steps hsteps
  refine ⟨halted_of_runFor (Nat.lt_succ_self _) h, hlogged.tick_le, hlogged.jumps_le, ?_, hlogged.spaced,
    hlogged.ordered, hlogged.alternating, fun c hc => hlogged.first c hc, fun t ht => ?_⟩
  · have : IsTrans Visit fun v w => v.tick < w.tick := ⟨fun _ _ _ => Nat.lt_trans⟩
    exact List.isChain_iff_pairwise.1 (hlogged.spaced.imp fun _ _ => Due.lt)
  · obtain ⟨now, hnow, htick, hlater⟩ := exists_now hsteps (Nat.lt_succ_self _) ht
    exact ⟨now, hnow, htick, (hlater.valueAt_eq ((Logged.initial m idle).of_steps hnow) htick).symm⟩

/-- Every run ends, astray or with a trace that tells what it did. It ends in the same way if steps are made before
it. -/
theorem run_faithful (m : Machine) (idle : Int) :
    m.Loop (.initial idle) (m.run (.initial idle)) ∧
      (∀ s, m.run (.initial idle) = .ok s → m.Faithful idle s) ∧
      ∀ n, m.steps n (.initial idle) >>= m.run = m.run (.initial idle) :=
  ⟨loop_run m _, fun _ => faithful_of_run, fun n => steps_bind_run n _⟩

/-- Two SETs with a wait between them, and a jump back that is taken up to tick 9. -/
def blinking : Machine where
  words := #[0x80000003, 0x00000002, 0x80000001, 0x44000401, 0xC0000000]
  counts _ tick := if tick < 9 then 1 else 0
  maxJumps := 3
  maxTicks := 40

theorem blinking_faithful : ∃ s, blinking.run (.initial 3) = .ok s ∧ s.tick = 13 ∧ s.jumps = 1 ∧
    s.halted = some .ended ∧ s.changes = #[⟨4, 1⟩, ⟨6, 3⟩, ⟨10, 1⟩] ∧ blinking.Faithful 3 s ∧
      blinking.steps 7 (.initial 3) >>= blinking.run = .ok s := by
  obtain ⟨-, hfaithful, hsteps⟩ := run_faithful blinking 3
  have hresult : ((blinking.run (.initial 3)).map fun s => (s.tick, s.jumps, s.halted, s.changes)).toOption =
      some (13, 1, some .ended, #[⟨4, 1⟩, ⟨6, 3⟩, ⟨10, 1⟩]) := by decide +kernel
  cases hrun : blinking.run (.initial 3) with
  | error e =>
    rw [hrun] at hresult
    cases hresult
  | ok s =>
    rw [hrun] at hresult
    obtain ⟨htick, hrest⟩ := Prod.mk.inj (Option.some.inj hresult)
    obtain ⟨hjumps, hrest⟩ := Prod.mk.inj hrest
    obtain ⟨hhalted, hchanges⟩ := Prod.mk.inj hrest
    exact ⟨s, rfl, htick, hjumps, hhalted, hchanges, hfaithful s hrun, (hsteps 7).trans hrun⟩

end PulseSequencer.Machine
