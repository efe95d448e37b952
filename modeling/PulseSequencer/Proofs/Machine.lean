import Mathlib
import PulseSequencer.Code.Machine

/-!
# Steps of the machine

* `Machine.step_cases` : all that a step can do;
* `Machine.tick_execute`, `Machine.executed_execute`, `Machine.tick_add_delay_execute`, `Machine.changes_execute`,
  `Machine.jumps_execute` : what the word at the program counter does to the records and counters;
* `Machine.tick_of_step`, `Machine.tick_le_of_step`, `Machine.halted_of_step` : a step that goes on passes a tick, one
  that does not halts the machine;
* `Machine.runFor_of_halted`, `Machine.runFor_succ`, `Machine.halted_of_runFor` : runs, one step after the other.
-/

namespace PulseSequencer.Machine

variable {m : Machine} {s s' : State} {go : Bool}

/-! ## A word takes effect -/

section Execute

variable (m : Machine) (op : Operation) (s : State)

@[simp] theorem tick_execute : (m.execute op s).2.tick = s.tick + 1 := by
  cases op with
  | wait | set | stop => rfl
  | jump always channel threshold address =>
    simp only [execute]
    split_ifs <;> rfl

@[simp] theorem executed_execute : (m.execute op s).2.executed = s.executed.push ⟨s.tick, s.pc⟩ := by
  cases op with
  | wait | set | stop => rfl
  | jump always channel threshold address =>
    simp only [execute]
    split_ifs <;> rfl

/-- The tick after an operation, and what is left of a wait, come to the width of the operation. -/
theorem tick_add_delay_execute (h : s.delay = 0) :
    (m.execute op s).2.tick + (m.execute op s).2.delay = s.tick + op.width := by
  cases op with
  | wait duration => exact Nat.add_assoc _ _ _
  | set | stop => simp [execute, Operation.width, h]
  | jump always channel threshold address =>
    simp only [execute]
    split_ifs <;> simp [Operation.width, h]

/-- The bus stays, or takes a new value, which is recorded. -/
theorem changes_execute :
    ((m.execute op s).2.bus = s.bus ∧ (m.execute op s).2.changes = s.changes) ∨
      ∃ value : Nat, (value : Int) ≠ s.bus ∧ (m.execute op s).2.bus = value ∧
        (m.execute op s).2.changes = s.changes.push ⟨s.tick, value⟩ := by
  cases op with
  | wait | stop => exact .inl ⟨rfl, rfl⟩
  | set value =>
    by_cases hvalue : (value : Int) = s.bus
    · exact .inl ⟨hvalue, if_pos hvalue⟩
    · exact .inr ⟨value, hvalue, rfl, if_neg hvalue⟩
  | jump always channel threshold address =>
    left
    simp only [execute]
    split_ifs <;> exact ⟨rfl, rfl⟩

/-- One jump more at most, and only a machine that halts goes past the limit. -/
theorem jumps_execute (h : s.jumps ≤ m.maxJumps) :
    (m.execute op s).2.jumps ≤ m.maxJumps + 1 ∧
      ((m.execute op s).2.halted = none → (m.execute op s).2.jumps ≤ m.maxJumps) := by
  cases op with
  | wait | set | stop => exact ⟨Nat.le_succ_of_le h, fun _ => h⟩
  | jump always channel threshold address =>
    simp only [execute]
    split_ifs with htaken hlimit
    · exact ⟨Nat.succ_le_succ h, fun hhalted => by cases hhalted⟩
    · exact ⟨Nat.succ_le_succ h, fun _ => Nat.not_lt.1 hlimit⟩
    · exact ⟨Nat.le_succ_of_le h, fun _ => h⟩

/-- The machine stops only when it halts. -/
theorem execute_halts (h : (m.execute op s).1 = false) : (m.execute op s).2.halted ≠ none := by
  cases op with
  | wait | set => cases h
  | stop => simp [execute]
  | jump always channel threshold address =>
    unfold execute at h ⊢
    simp only at h ⊢
    split_ifs at h ⊢
    simp

end Execute

/-! ## Steps -/

/-- All that a step can do: nothing, if the machine has halted; halt at the tick limit; pass a tick of a wait; or
execute a word. -/
theorem step_cases (h : m.step s = .ok (go, s')) :
    (s.halted ≠ none ∧ go = false ∧ s' = s) ∨
    (s.halted = none ∧ m.maxTicks ≤ s.tick ∧ go = false ∧ s' = { s with halted := some .tickLimit }) ∨
    (s.halted = none ∧ s.tick < m.maxTicks ∧ 0 < s.delay ∧ go = true ∧
      s' = { s with delay := s.delay - 1, tick := s.tick + 1 }) ∨
    (s.halted = none ∧ s.tick < m.maxTicks ∧ s.delay = 0 ∧
      ∃ w, m.wordAt? s.pc = some w ∧ m.execute (.ofWord w) s = (go, s')) := by
  unfold step at h
  split at h
  · rename_i hhalted
    cases h
    exact .inl ⟨Option.isSome_iff_ne_none.1 hhalted, rfl, rfl⟩
  rename_i hrun
  have hhalted : s.halted = none := by simpa using hrun
  split at h
  · rename_i ht
    cases h
    exact .inr (.inl ⟨hhalted, ht, rfl, rfl⟩)
  rename_i ht
  have ht' : s.tick < m.maxTicks := Nat.lt_of_not_le ht
  split at h
  · rename_i hdelay
    cases h
    exact .inr (.inr (.inl ⟨hhalted, ht', hdelay, rfl, rfl⟩))
  rename_i hdelay
  split at h
  · cases h
  · rename_i w hw
    exact .inr (.inr (.inr ⟨hhalted, ht', Nat.eq_zero_of_not_pos hdelay, w, hw, Except.ok.inj h⟩))

/-- A step that goes on passes a tick below the limit. -/
theorem tick_of_step (h : m.step s = .ok (true, s')) : s.tick < m.maxTicks ∧ s'.tick = s.tick + 1 := by
  obtain ⟨-, hgo, -⟩ | ⟨-, -, hgo, -⟩ | ⟨-, ht, -, -, rfl⟩ | ⟨-, ht, -, w, -, hex⟩ := step_cases h
  · cases hgo
  · cases hgo
  · exact ⟨ht, rfl⟩
  · refine ⟨ht, ?_⟩
    have htick := tick_execute m (.ofWord w) s
    rwa [hex] at htick

theorem tick_le_of_step (h : m.step s = .ok (go, s')) : s'.tick ≤ s.tick + 1 := by
  obtain ⟨-, -, rfl⟩ | ⟨-, -, -, rfl⟩ | ⟨-, -, -, -, rfl⟩ | ⟨-, -, -, w, -, hex⟩ := step_cases h
  · exact Nat.le_succ _
  · exact Nat.le_succ _
  · exact le_refl _
  · have htick := tick_execute m (.ofWord w) s
    rw [hex] at htick
    exact htick.le

/-- A step that does not go on leaves the machine halted. -/
theorem halted_of_step (h : m.step s = .ok (false, s')) : s'.halted ≠ none := by
  obtain ⟨hhalted, -, rfl⟩ | ⟨-, -, -, rfl⟩ | ⟨-, -, -, hgo, -⟩ | ⟨-, -, -, w, -, hex⟩ := step_cases h
  · exact hhalted
  · exact Option.some_ne_none _
  · cases hgo
  · have hhalts := execute_halts m (.ofWord w) s
    rw [hex] at hhalts
    exact hhalts rfl

/-! ## Runs -/

theorem step_of_halted (h : s.halted ≠ none) : m.step s = .ok (false, s) := by
  rw [step, if_pos (Option.isSome_iff_ne_none.2 h)]

theorem runFor_of_halted (h : s.halted ≠ none) (n : Nat) : m.runFor n s = .ok s := by
  cases n with
  | zero => rfl
  | succ n => rw [runFor, step_of_halted h]

/-- A run goes on after its first step; where it does not, the machine has halted. -/
theorem runFor_succ (h : m.step s = .ok (go, s')) {n : Nat} : m.runFor (n + 1) s = m.runFor n s' := by
  rw [runFor, h]
  cases go with
  | true => rfl
  | false => exact (runFor_of_halted (halted_of_step h) n).symm

/-- A machine with ticks for all of its steps ends up halted. -/
theorem halted_of_runFor {n : Nat} : ∀ {s r : State}, m.maxTicks - s.tick < n → m.runFor n s = .ok r →
    r.halted ≠ none := by
  induction n with
  | zero => exact fun hlt => absurd hlt (Nat.not_lt_zero _)
  | succ n ih =>
    intro s r hlt h
    rw [runFor] at h
    split at h
    · cases h
    · rename_i s' hstep
      obtain ⟨ht, htick⟩ := tick_of_step hstep
      exact ih (by omega) h
    · rename_i s' hstep
      cases h
      exact halted_of_step hstep

end PulseSequencer.Machine
