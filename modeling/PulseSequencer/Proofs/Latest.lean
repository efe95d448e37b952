import PulseSequencer.Compiler.Compile
import PulseSequencer.Proofs.Attempt
import PulseSequencer.Proofs.Order

/-!
# The latest event

* `Binary64.foldl_max_perm`, `Binary64.foldl_max_spec` : the largest of some numbers;
* `Timeline.events`, `Timeline.latest_eq_ok` : the window ends and jump times of a variant, and the latest of them.
-/

namespace PulseSequencer

namespace Binary64

variable {x y m : Binary64} {xs ys : List Binary64}

theorem isNaN_max : (Binary64.max x y).isNaN = (x.isNaN || y.isNaN) := by
  unfold Binary64.max
  cases hx : x.isNaN <;> cases hy : y.isNaN
  · simp only [Bool.or_false, Bool.false_eq_true, if_false]
    split <;> assumption
  all_goals rfl

/-- The larger of two numbers is one of them, and neither is larger. -/
theorem max_spec (hx : x.isNaN = false) (hy : y.isNaN = false) :
    (Binary64.max x y = x ∨ Binary64.max x y = y) ∧ x.key ≤ (Binary64.max x y).key ∧
      y.key ≤ (Binary64.max x y).key := by
  unfold Binary64.max
  rw [if_neg (by simp [hx, hy])]
  split
  · rename_i hlt
    rw [lt_iff_key hx hy] at hlt
    exact ⟨.inr rfl, hlt.le, le_rfl⟩
  · rename_i hlt
    rw [lt_iff_key hx hy, not_lt] at hlt
    exact ⟨.inl rfl, le_rfl, hlt⟩

theorem isNaN_foldl_max : ∀ {m : Binary64}, (ys.foldl Binary64.max m).isNaN = (m.isNaN || ys.any isNaN) := by
  induction ys with
  | nil => simp
  | cons y ys ih =>
    intro m
    rw [List.foldl_cons, ih, isNaN_max, List.any_cons, Bool.or_assoc]

/-- The largest of some numbers is one of them, and none is larger. -/
theorem foldl_max_spec : ∀ {m : Binary64}, (ys.foldl Binary64.max m).isNaN = false →
    ys.foldl Binary64.max m ∈ m :: ys ∧ ∀ y ∈ m :: ys, y.key ≤ (ys.foldl Binary64.max m).key := by
  induction ys with
  | nil => exact fun {m} _ => ⟨by simp, by simp⟩
  | cons x ys ih =>
    intro m h
    rw [isNaN_foldl_max, List.any_cons, Bool.or_eq_false_iff, Bool.or_eq_false_iff] at h
    obtain ⟨hm, hx, hys⟩ := h
    obtain ⟨hcases, hlm, hlx⟩ := max_spec hm hx
    rw [List.foldl_cons]
    obtain ⟨hmem, hle⟩ := ih (m := Binary64.max m x) (by rw [isNaN_foldl_max, isNaN_max, hm, hx, hys]; rfl)
    refine ⟨?_, fun y hy => ?_⟩
    · rcases List.mem_cons.1 hmem with heq | hmem
      · rw [heq]
        rcases hcases with heq | heq <;> simp [heq]
      · exact List.mem_cons_of_mem _ (List.mem_cons_of_mem _ hmem)
    · have hmax := hle _ List.mem_cons_self
      rcases List.mem_cons.1 hy with rfl | hy
      · exact hlm.trans hmax
      rcases List.mem_cons.1 hy with rfl | hy
      · exact hlx.trans hmax
      · exact hle y (List.mem_cons_of_mem _ hy)

/-- Only zeros share a place. -/
theorem key_inj (hx : x.isNaN = false) (hy : y.isNaN = false) (h : x.key = y.key) (hzero : (0 : Binary64).key < x.key) :
    x = y := by
  rw [zero_eq] at hzero
  cases x with
  | nan => cases hx
  | negZero => simp [key] at hzero
  | infinite n =>
    cases n with
    | true => simp [key] at hzero
    | false =>
      cases y with
      | nan => cases hy
      | infinite n =>
        cases n with
        | true => simp [key] at h
        | false => rfl
      | finite _ | negZero => exact absurd (WithBot.coe_inj.1 h) (WithTop.top_ne_coe)
  | finite q =>
    cases y with
    | nan => cases hy
    | negZero =>
      rw [h] at hzero
      simp [key] at hzero
    | infinite n =>
      cases n with
      | true => simp [key] at h
      | false => exact absurd (WithBot.coe_inj.1 h) (WithTop.coe_ne_top)
    | finite r => simpa [key] using h

theorem max_eq (hx : x.isNaN = false) (hy : y.isNaN = false) : Binary64.max x y = if x.key < y.key then y else x := by
  unfold Binary64.max
  rw [if_neg (by simp [hx, hy])]
  simp only [lt_iff_key hx hy]

/-- Which of two numbers comes first makes no difference where no negative zero can come up. -/
theorem max_right_comm (hm : m.isNaN = false → (0 : Binary64).key ≤ m.key) :
    Binary64.max (Binary64.max m x) y = Binary64.max (Binary64.max m y) x := by
  by_cases hnan : m.isNaN = false ∧ x.isNaN = false ∧ y.isNaN = false
  · obtain ⟨hn, hx, hy⟩ := hnan
    have hle := hm hn
    rw [max_eq (x := Binary64.max m x) (by rw [isNaN_max, hn, hx]; rfl) hy,
      max_eq (x := Binary64.max m y) (by rw [isNaN_max, hn, hy]; rfl) hx, max_eq hn hx, max_eq hn hy]
    split_ifs <;> first | rfl | (exfalso; order) | exact key_inj hx hy (by order) (by order)
  · rw [eq_nan (x := Binary64.max (Binary64.max m x) y), eq_nan (x := Binary64.max (Binary64.max m y) x)]
    all_goals
      rw [isNaN_max, isNaN_max]
      revert hnan
      cases m.isNaN <;> cases x.isNaN <;> cases y.isNaN <;> simp

theorem foldl_max_perm (h : xs.Perm ys) : ∀ {m : Binary64}, (m.isNaN = false → (0 : Binary64).key ≤ m.key) →
    xs.foldl Binary64.max m = ys.foldl Binary64.max m := by
  induction h with
  | nil => exact fun _ => rfl
  | cons x _ ih =>
    intro m hm
    refine ih fun hnan => ?_
    rw [isNaN_max, Bool.or_eq_false_iff] at hnan
    exact (hm hnan.1).trans (max_spec hnan.1 hnan.2).2.1
  | swap x y xs =>
    intro m hm
    rw [List.foldl_cons, List.foldl_cons, List.foldl_cons, List.foldl_cons, max_right_comm hm]
  | trans _ _ ih ih' => exact fun hm => (ih hm).trans (ih' hm)

end Binary64

/-- A fold that computes something for each element first. -/
theorem Except.foldlM_pure_eq_ok {ε α β γ : Type} {op : β → γ → β} {f : α → Except ε γ} {xs : List α} : ∀ {b b' : β},
    xs.foldlM (fun b a => do return op b (← f a)) b = .ok b' ↔
      (∀ a ∈ xs, ∃ y, f a = .ok y) ∧ b' = (xs.filterMap fun a => (f a).toOption).foldl op b := by
  induction xs with
  | nil =>
    intro b b'
    change Except.ok b = .ok b' ↔ _
    simpa using eq_comm
  | cons a xs ih =>
    intro b b'
    rw [List.foldlM_cons]
    cases hfa : f a with
    | error e =>
      refine iff_of_false nofun fun h => ?_
      obtain ⟨y, hy⟩ := h.1 a List.mem_cons_self
      cases hfa.symm.trans hy
    | ok y =>
      change (List.foldlM _ (op b y) xs : Except ε β) = .ok b' ↔ _
      rw [ih]
      simp [hfa, Except.toOption]

namespace Timeline

/-- The window ends and jump times of a variant. -/
def events (t : Timeline) : List Binary64 :=
  t.sequence.channels.flatMap fun c => (c.windows.filterMap fun w => (t.finishOf w.name).toOption) ++
    c.jumps.filterMap fun j => (t.jumpTime j.name).toOption

theorem mem_events_of_finish {t : Timeline} {c : Channel} {w : Window} {x : Binary64} (hc : c ∈ t.sequence.channels)
    (hw : w ∈ c.windows) (hx : t.finishOf w.name = .ok x) : x ∈ t.events := by
  refine List.mem_flatMap.2 ⟨c, hc, List.mem_append_left _ (List.mem_filterMap.2 ⟨w, hw, ?_⟩)⟩
  rw [hx]
  rfl

theorem latest_eq_ok {t : Timeline} {x : Binary64} : t.latest = .ok x ↔
    (∀ c ∈ t.sequence.channels, (∀ w ∈ c.windows, ∃ y, t.finishOf w.name = .ok y) ∧
      ∀ j ∈ c.jumps, ∃ y, t.jumpTime j.name = .ok y) ∧ x = t.events.foldl Binary64.max 0 := by
  unfold latest events
  generalize (0 : Binary64) = m
  induction t.sequence.channels generalizing m with
  | nil =>
    change Except.ok m = .ok x ↔ _
    simpa using eq_comm
  | cons c cs ih =>
    simp only [List.foldlM_cons, Except.bind_eq_ok, Except.foldlM_pure_eq_ok, ih, List.flatMap_cons, List.foldl_append,
      List.forall_mem_cons]
    constructor
    · rintro ⟨_, ⟨_, ⟨hw, rfl⟩, hj, rfl⟩, hrest, rfl⟩
      exact ⟨⟨⟨hw, hj⟩, hrest⟩, rfl⟩
    · rintro ⟨⟨⟨hw, hj⟩, hrest⟩, rfl⟩
      exact ⟨_, ⟨_, ⟨hw, rfl⟩, hj, rfl⟩, hrest, rfl⟩

/-- Later events have later ticks. -/
def Ordered (t : Timeline) : Prop := ∀ a ∈ t.events, ∀ b ∈ t.events, a ≤ b →
  Tick.ofTime t.sequence.hardware.delayUnit a ≤ Tick.ofTime t.sequence.hardware.delayUnit b

instance (t : Timeline) : Decidable t.Ordered := inferInstanceAs (Decidable (∀ a ∈ t.events, ∀ b ∈ t.events, a ≤ b →
  Tick.ofTime t.sequence.hardware.delayUnit a ≤ Tick.ofTime t.sequence.hardware.delayUnit b))

/-- No window ends later than the tick of the latest event. -/
theorem Ordered.finish_le {t : Timeline} (ht : t.Ordered) {latest : Binary64} (hlatest : t.latest = .ok latest)
    (hnan : latest.isNaN = false) (hpos : ¬ latest ≤ 0) {c : Channel} (hc : c ∈ t.sequence.channels) {w : Window}
    (hw : w ∈ c.windows) {x : Binary64} (hx : t.finishOf w.name = .ok x) :
    Tick.ofTime t.sequence.hardware.delayUnit x ≤ Tick.ofTime t.sequence.hardware.delayUnit latest := by
  have hmem := mem_events_of_finish hc hw hx
  obtain rfl := (latest_eq_ok.1 hlatest).2
  obtain ⟨hcases, hle⟩ := Binary64.foldl_max_spec hnan
  have hevent : t.events.foldl Binary64.max 0 ∈ t.events := by
    refine (List.mem_cons.1 hcases).resolve_left fun hzero => hpos ?_
    rw [hzero]
    decide
  have hxnan : x.isNaN = false := by
    rw [Binary64.isNaN_foldl_max, Bool.or_eq_false_iff, List.any_eq_false] at hnan
    simpa using hnan.2 x hmem
  exact ht x hmem _ hevent ((Binary64.le_iff_key hxnan hnan).2 (hle x (List.mem_cons_of_mem _ hmem)))

end Timeline

/-- The length of a variant: all of it, or two ticks more than its latest event. -/
theorem Sequence.ticks_cases {t : Timeline} {o : Options} {length : Int} (h : (ticks t o).outcome = .ok length) :
    length = Tick.ofTime t.sequence.hardware.delayUnit t.sequence.length ∨
    (o.truncate = true ∧ ∃ latest, t.latest = .ok latest ∧ ¬ latest ≤ 0 ∧
      length = min (Tick.ofTime t.sequence.hardware.delayUnit t.sequence.length)
        (Tick.ofTime t.sequence.hardware.delayUnit latest + 2)) := by
  unfold ticks at h
  simp only at h
  split at h
  · cases h
    exact .inl rfl
  · rename_i htruncate
    obtain ⟨latest, hlatest, h⟩ := Attempt.bind_eq_ok.1 h
    split at h
    · obtain ⟨⟨⟩, -, h⟩ := Attempt.bind_eq_ok.1 h
      cases h
      exact .inl rfl
    · rename_i hpos
      cases h
      exact .inr ⟨by simpa using htruncate, latest, Attempt.ofExcept_eq_ok.1 hlatest, hpos, rfl⟩

theorem Tick.ofTime_nan (unit : Binary64) : ofTime unit .nan = unbounded := by
  cases unit <;> rfl

end PulseSequencer
