import PulseSequencer.Compiler.Compile
import PulseSequencer.Proofs.Checks
import PulseSequencer.Proofs.Order

/-!
# Times of a verified sequence

* `Tick.ofTime_nonneg` : no time from zero on is quantized to a tick before it;
* `Sequence.WindowAt`, `Sequence.spanOf_eq_ok` : the windows that pass their check;
* `Timeline.Resolves`, `Sequence.resolves_of_checkTiming` : the windows of a verified sequence have times;
* `Sequence.exists_ticks` : and so the sequence has a length.
-/

namespace PulseSequencer

namespace Binary64

/-- A number that is not below zero, or none at all. -/
def Upper : Binary64 → Prop
  | finite q => 0 ≤ q
  | infinite n => n = false
  | _ => True

theorem upper_of_le {x : Binary64} (h : 0 ≤ x) : x.Upper := by
  rw [zero_eq] at h
  cases x with
  | finite q => exact finite_le.1 h
  | infinite n =>
    cases n
    · rfl
    · cases h
  | _ => trivial

theorem upper_of_lt {x : Binary64} (h : 0 < x) : x.Upper := by
  rw [zero_eq] at h
  cases x with
  | finite q => exact (finite_lt.1 h).le
  | infinite n =>
    cases n
    · rfl
    · cases h
  | _ => trivial

theorem upper_roundMagnitude (num den : Nat) : (roundMagnitude false num den).Upper := by
  unfold roundMagnitude
  extract_lets unit significand magnitude
  have hmagnitude : 0 ≤ magnitude := by
    unfold magnitude
    split
    · exact Nat.cast_nonneg _
    · rw [Rat.mkRat_eq_div]
      positivity
  simp only [Bool.false_eq_true, if_false]
  split
  · rfl
  split
  · exact le_refl (0 : Rat)
  split
  · rfl
  · exact hmagnitude

theorem upper_ofRat {q : Rat} (h : 0 ≤ q) : (ofRat q).Upper := by
  unfold ofRat
  split
  · exact h
  · rw [decide_eq_false (not_lt.2 (Rat.num_nonneg.2 h))]
    exact upper_roundMagnitude _ _

theorem upper_div {x y : Binary64} (hx : x.Upper) (hy : 0 < y) : (x / y).Upper := by
  have hy' := upper_of_lt hy
  cases y with
  | nan => cases hy
  | negZero => rw [zero_eq] at hy; cases hy
  | infinite n =>
    cases hy'
    cases x <;> first | trivial | exact hx | skip
    · rename_i q
      have hq : 0 ≤ q := hx
      change (zero (decide (q.num < 0) != false)).Upper
      rw [decide_eq_false (not_lt.2 (Rat.num_nonneg.2 hq))]
      exact le_refl (0 : Rat)
  | finite r =>
    rw [zero_eq, finite_lt] at hy
    have hnum : (r.num == 0) = false := beq_eq_false_iff_ne.2 (Rat.num_ne_zero.2 hy.ne')
    have hneg : decide (r.num < 0) = false := decide_eq_false (not_lt.2 (Rat.num_nonneg.2 hy.le))
    cases x with
    | nan => trivial
    | infinite n =>
      cases hx
      change (false != decide (r.num < 0)) = false
      rw [hneg]
      rfl
    | negZero =>
      change (if (r.num == 0) = true then _ else if true = true then zero (true != decide (r.num < 0)) else _ :
        Binary64).Upper
      rw [hnum, hneg]
      trivial
    | finite q =>
      have hq : 0 ≤ q := hx
      change (if (r.num == 0) = true then _ else if (q.num == 0) = true then
        zero (decide (q.num < 0) != decide (r.num < 0)) else ofRat (q / r) : Binary64).Upper
      rw [hnum, hneg, decide_eq_false (not_lt.2 (Rat.num_nonneg.2 hq))]
      simp only [Bool.false_eq_true, if_false]
      split
      · exact le_refl (0 : Rat)
      · exact upper_ofRat (div_nonneg hq hy.le)

theorem upper_floor {x : Binary64} (h : x.Upper) : x.floor.Upper := by
  cases x with
  | finite q =>
    have hq : (0 : Rat) ≤ q := h
    have hfloor : (0 : Int) ≤ q.floor := Rat.le_floor_iff.2 (by simpa using hq)
    change (0 : Rat) ≤ (q.floor : Rat)
    exact_mod_cast hfloor
  | _ => exact h

theorem upper_round {x : Binary64} (h : x.Upper) : x.round.Upper := by
  cases x with
  | finite q =>
    have hq : (0 : Rat) ≤ q := h
    change (0 : Rat) ≤ ((q + 1 / 2).floor : Rat)
    have hfloor : (0 : Int) ≤ (q + 1 / 2).floor := Rat.le_floor_iff.2 (by
      push_cast
      linarith)
    exact_mod_cast hfloor
  | _ => exact h

theorem upper_add_one {x : Binary64} (h : x.Upper) : (x + 1).Upper := by
  rw [one_eq]
  cases x with
  | finite q =>
    have hq : (0 : Rat) ≤ q := h
    exact upper_ofRat (by change (0 : Rat) ≤ q + 1; linarith)
  | negZero => exact upper_ofRat (by change (0 : Rat) ≤ 0 + 1; norm_num)
  | infinite n => exact h
  | nan => trivial

end Binary64

theorem Tick.ofTime_nonneg {unit time : Binary64} (hunit : 0 < unit) (htime : 0 ≤ time) : 0 ≤ ofTime unit time := by
  have hexact := Binary64.upper_div (Binary64.upper_of_le htime) hunit
  have hquant : (quantize time unit).Upper := by
    unfold quantize
    simp only
    split
    · split
      · exact Binary64.upper_floor hexact
      · exact Binary64.upper_add_one (Binary64.upper_floor hexact)
    · exact Binary64.upper_round hexact
  unfold ofTime ofWhole
  split
  · rename_i q hq
    rw [hq] at hquant
    have hnonneg : (0 : Rat) ≤ q := hquant
    exact Rat.le_floor_iff.2 (by simpa using hnonneg)
  · exact le_refl 0
  · rename_i hq
    rw [hq] at hquant
    cases hquant
  · unfold unbounded
    positivity

/-! ## Windows -/

namespace Sequence

def Inside (s : Sequence) (time : Binary64) : Prop := 0 ≤ time ∧ time ≤ s.length

/-- A window at its times. -/
structure WindowAt (s : Sequence) (t : Timeline) (c : Channel) (w : Window) (start finish : Binary64) : Prop where
  starts : t.startOf w.name = .ok start
  ends : t.finishOf w.name = .ok finish
  start_inside : s.Inside start
  finish_inside : s.Inside finish
  order : start ≤ finish
  /-- A control window lasts 1 at least; between infinite times no length is asked for. -/
  lasting : c.isControl = true → 1 ≤ finish - start ∨ finish = .infinite false ∧ start = .infinite false

variable {s : Sequence} {t : Timeline} {c : Channel} {w : Window} {x : Span} {xs : List Span}

theorem Inside.isNaN {time : Binary64} (h : s.Inside time) : time.isNaN = false := Binary64.isNaN_of_nonneg h.1

theorem require_bind_eq_ok {condition : Bool} {f : Fault} {α : Type} {y : Except Fault α} {r : α} :
    (require condition f >>= fun _ => y) = .ok r ↔ condition = true ∧ y = .ok r := by
  rw [require]
  cases condition with
  | true => exact (and_iff_right rfl).symm
  | false =>
    constructor
    · intro h
      cases h
    · intro h
      cases h.1

theorem checkInside_eq_ok {subject : String} {time : Binary64} :
    s.checkInside subject time = .ok () ↔ s.Inside time := by
  rw [checkInside, require_eq_ok, Bool.and_eq_true, decide_eq_true_eq, decide_eq_true_eq]
  rfl

theorem spanOf_eq_ok : s.spanOf t c w = .ok x ↔ x.name = w.name ∧ s.WindowAt t c w x.start x.finish := by
  have hrule : ∀ {start finish : Binary64}, s.Inside start → s.Inside finish →
      ((!(c.isControl && decide (finish - start < .ofNat minControlWindow))) = true ↔
        (c.isControl = true → 1 ≤ finish - start ∨ finish = .infinite false ∧ start = .infinite false)) := by
    intro start finish hstart hfinish
    rw [← Binary64.not_sub_lt_one hfinish.1 hstart.1, show Binary64.ofNat minControlWindow = 1 from rfl,
      Bool.not_eq_true', Bool.and_eq_false_iff, decide_eq_false_iff_not]
    cases c.isControl <;> simp
  constructor
  · intro h
    obtain ⟨start, hstart, h⟩ := Except.bind_eq_ok.1 h
    obtain ⟨finish, hfinish, h⟩ := Except.bind_eq_ok.1 h
    obtain ⟨⟨⟩, hin, h⟩ := Except.bind_eq_ok.1 h
    obtain ⟨⟨⟩, hin', h⟩ := Except.bind_eq_ok.1 h
    obtain ⟨⟨⟩, horder, h⟩ := Except.bind_eq_ok.1 h
    obtain ⟨⟨⟩, hlasting, h⟩ := Except.bind_eq_ok.1 h
    cases h
    rw [checkInside_eq_ok] at hin hin'
    rw [require_eq_ok] at horder hlasting
    refine ⟨rfl, hstart, hfinish, hin, hin', ?_, (hrule hin hin').1 hlasting⟩
    rw [← Binary64.not_lt hin'.isNaN hin.isNaN]
    simpa using horder
  · rintro ⟨hname, h⟩
    obtain ⟨name, start, finish⟩ := x
    cases hname
    have horder : (!decide (finish < start)) = true := by
      rw [Bool.not_eq_true', decide_eq_false_iff_not, Binary64.not_lt h.finish_inside.isNaN h.start_inside.isNaN]
      exact h.order
    refine Except.bind_eq_ok.2 ⟨start, h.starts, Except.bind_eq_ok.2 ⟨finish, h.ends, ?_⟩⟩
    refine Except.bind_eq_ok.2 ⟨(), checkInside_eq_ok.2 h.start_inside, ?_⟩
    refine Except.bind_eq_ok.2 ⟨(), checkInside_eq_ok.2 h.finish_inside, ?_⟩
    refine Except.bind_eq_ok.2 ⟨(), require_eq_ok.2 horder, ?_⟩
    exact Except.bind_eq_ok.2 ⟨(), require_eq_ok.2 ((hrule h.start_inside h.finish_inside).2 h.lasting), rfl⟩

theorem spansOf_eq_ok : s.spansOf t c = .ok xs ↔ List.Forall₂ (fun w x => s.spanOf t c w = .ok x) c.windows xs ∧
    (c.role = .output → checkOverlap c.name (Sort.sortBy (fun a b => !decide (b.start < a.start)) xs) = .ok ()) := by
  unfold spansOf
  rw [Except.bind_eq_ok]
  cases hrole : c.role with
  | output =>
    constructor
    · rintro ⟨xs', hall, h⟩
      obtain ⟨⟨⟩, hoverlap, h⟩ := Except.bind_eq_ok.1 h
      cases h
      exact ⟨Except.mapM_eq_ok.1 hall, fun _ => hoverlap⟩
    · rintro ⟨hall, hoverlap⟩
      exact ⟨xs, Except.mapM_eq_ok.2 hall, Except.bind_eq_ok.2 ⟨(), hoverlap rfl, rfl⟩⟩
  | counter | control _ =>
    constructor
    · rintro ⟨xs', hall, h⟩
      cases h
      exact ⟨Except.mapM_eq_ok.1 hall, nofun⟩
    · rintro ⟨hall, -⟩
      exact ⟨xs, Except.mapM_eq_ok.2 hall, rfl⟩

end Sequence

/-- Every window has its times, and none is before the sequence. -/
def Timeline.Resolves (t : Timeline) : Prop :=
  ∀ c ∈ t.sequence.channels, ∀ w ∈ c.windows, ∃ start finish, t.startOf w.name = .ok start ∧
    t.finishOf w.name = .ok finish ∧ 0 ≤ start ∧ 0 ≤ finish

namespace Sequence

theorem resolves_of_checkTiming {s : Sequence} {variant : Binary64} (h : s.checkTiming variant = .ok ()) :
    ∃ t, Timeline.ofVariant s variant = .ok t ∧ t.sequence = s ∧ t.Resolves := by
  obtain ⟨t, ht, h⟩ := Except.bind_eq_ok.1 h
  obtain ⟨spans, hspans, -⟩ := Except.bind_eq_ok.1 h
  obtain ⟨values, -, hpure⟩ := Except.bind_eq_ok.1 ht
  obtain rfl := Except.pure_eq_ok.1 hpure
  refine ⟨_, ht, rfl, fun c hc w hw => ?_⟩
  obtain ⟨zs, hall, -⟩ := Except.flatMapM_eq_ok.1 hspans
  obtain ⟨xs, -, hxs⟩ := forall₂_exists_right hall hc
  obtain ⟨x, -, hx⟩ := forall₂_exists_right (spansOf_eq_ok.1 hxs).1 hw
  obtain ⟨-, hwindow⟩ := spanOf_eq_ok.1 hx
  exact ⟨x.start, x.finish, hwindow.starts, hwindow.ends, hwindow.start_inside.1, hwindow.finish_inside.1⟩

/-! ## Lengths -/

theorem jumps_eq_nil_of_hasJumps {s : Sequence} (h : s.hasJumps = false) : ∀ c ∈ s.channels, c.jumps = [] := by
  have hnil : s.jumps = [] := by simpa [hasJumps] using h
  intro c hc
  simpa using List.flatMap_eq_nil_iff.1 hnil c hc

end Sequence

theorem Except.foldlM_ok {ε α β : Type} {f : β → α → Except ε β} {xs : List α}
    (h : ∀ x ∈ xs, ∀ b, ∃ b', f b x = .ok b') : ∀ b, ∃ b', xs.foldlM f b = .ok b' := by
  induction xs with
  | nil => exact fun b => ⟨b, rfl⟩
  | cons x xs ih =>
    intro b
    obtain ⟨b₁, hb₁⟩ := h x (List.mem_cons_self ..) b
    obtain ⟨b₂, hb₂⟩ := ih (fun x hx => h x (List.mem_cons_of_mem _ hx)) b₁
    exact ⟨b₂, Except.foldlM_cons_eq_ok.2 ⟨b₁, hb₁, hb₂⟩⟩

theorem Timeline.Resolves.exists_latest {t : Timeline} (h : t.Resolves)
    (hjumps : ∀ c ∈ t.sequence.channels, c.jumps = []) : ∃ latest, t.latest = .ok latest := by
  refine Except.foldlM_ok (fun c hc latest => ?_) 0
  have hwindows : ∃ last, c.windows.foldlM (fun m (w : Window) => do return Binary64.max m (← t.finishOf w.name))
      latest = .ok last := by
    refine Except.foldlM_ok (fun w hw m => ?_) latest
    obtain ⟨-, finish, -, hfinish, -⟩ := h c hc w hw
    exact ⟨Binary64.max m finish, Except.bind_eq_ok.2 ⟨finish, hfinish, rfl⟩⟩
  obtain ⟨last, hlast⟩ := hwindows
  refine ⟨last, Except.bind_eq_ok.2 ⟨last, hlast, ?_⟩⟩
  rw [hjumps c hc]
  rfl

theorem Sequence.exists_ticks {t : Timeline} (o : Options) (h : t.Resolves)
    (hjumps : ∀ c ∈ t.sequence.channels, c.jumps = []) : ∃ length, (ticks t o).outcome = .ok length := by
  unfold ticks
  extract_lets unit full
  split
  · exact ⟨full, rfl⟩
  · obtain ⟨latest, hlatest⟩ := h.exists_latest hjumps
    rw [Attempt.outcome_bind_of_ok (Attempt.outcome_ofExcept_ok hlatest)]
    split
    · exact ⟨full, rfl⟩
    · exact ⟨_, rfl⟩

end PulseSequencer
