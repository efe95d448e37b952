import Mathlib.Data.List.Perm.Basic
import PulseSequencer.Proofs.Checks
import PulseSequencer.Proofs.Latest
import PulseSequencer.Proofs.Pulses

/-!
# Sequences in another order

The channels of a sequence, the windows of a channel, the jumps of a control channel and the conditions of a branch can
be listed in any order. Names are unique, so nothing that is looked up depends on it.

* `Rearranged` : lists whose members correspond, in any order;
* `Sequence.Reorders` : the same sequence, listed in another order;
* `Timeline.timeOf_over`, `Timeline.latest_over` : the same times;
* `Interval.merge_perm`, `Pulse.channels_over` : the same pulses.
-/

namespace PulseSequencer

/-! ## Lists in another order -/

/-- Lists of the same members are the same when sorted, if the order tells all of them apart. -/
theorem Sort.sortBy_perm {α : Type} {le : α → α → Bool} (total : ∀ a b, le a b = true ∨ le b a = true)
    (trans : ∀ a b c, le a b = true → le b c = true → le a c = true) {xs ys : List α} (h : ys.Perm xs)
    (anti : ∀ a ∈ xs, ∀ b ∈ xs, le a b = true → le b a = true → a = b) : sortBy le ys = sortBy le xs := by
  refine List.Perm.eq_of_pairwise (fun a b ha hb => ?_) (pairwise_sortBy total trans ys)
    (pairwise_sortBy total trans xs) ((perm_sortBy le ys).trans (h.trans (perm_sortBy le xs).symm))
  exact anti a (h.mem_iff.1 (mem_sortBy.1 ha)) b (mem_sortBy.1 hb)

/-- The members of `ys` correspond to those of `xs`, in some order. -/
def Rearranged {α β : Type} (R : α → β → Prop) (xs : List α) (ys : List β) : Prop :=
  ∃ mid, mid.Perm xs ∧ List.Forall₂ R mid ys

namespace Rearranged

variable {α β γ δ : Type} {R : α → β → Prop} {Q : γ → δ → Prop} {xs : List α} {ys : List β}

theorem symm (h : Rearranged R xs ys) : Rearranged (fun y x => R x y) ys xs := by
  obtain ⟨mid, hperm, hall⟩ := h
  obtain ⟨mid', hall', hperm'⟩ := List.perm_comp_forall₂ hperm.symm hall
  exact ⟨mid', hperm', hall'.flip⟩

theorem mono {R' : α → β → Prop} (h : Rearranged R xs ys) (himp : ∀ x y, R x y → R' x y) : Rearranged R' xs ys := by
  obtain ⟨mid, hperm, hall⟩ := h
  exact ⟨mid, hperm, hall.imp himp⟩

theorem of_perm {xs ys : List α} (h : ys.Perm xs) : Rearranged Eq xs ys :=
  ⟨ys, h, List.forall₂_same.2 fun _ _ => rfl⟩

theorem perm {xs ys : List α} (h : Rearranged Eq xs ys) : ys.Perm xs := by
  obtain ⟨mid, hperm, hall⟩ := h
  rw [List.forall₂_eq_eq_eq] at hall
  exact hall ▸ hperm

theorem length_eq (h : Rearranged R xs ys) : ys.length = xs.length := by
  obtain ⟨mid, hperm, hall⟩ := h
  rw [← hall.length_eq, hperm.length_eq]

theorem append {xs' : List α} {ys' : List β} (h : Rearranged R xs ys) (h' : Rearranged R xs' ys') :
    Rearranged R (xs ++ xs') (ys ++ ys') := by
  obtain ⟨mid, hperm, hall⟩ := h
  obtain ⟨mid', hperm', hall'⟩ := h'
  exact ⟨mid ++ mid', hperm.append hperm', List.rel_append hall hall'⟩

theorem flatMap {f : α → List γ} {g : β → List δ} (h : Rearranged R xs ys)
    (hfg : ∀ x y, R x y → Rearranged Q (f x) (g y)) : Rearranged Q (xs.flatMap f) (ys.flatMap g) := by
  obtain ⟨mid, hperm, hall⟩ := h
  have hmid : Rearranged Q (mid.flatMap f) (ys.flatMap g) := by
    clear hperm
    induction hall with
    | nil => exact ⟨[], .nil, .nil⟩
    | cons hxy _ ih => exact (hfg _ _ hxy).append ih
  obtain ⟨mid', hperm', hall'⟩ := hmid
  exact ⟨mid', hperm'.trans (hperm.flatMap_right f), hall'⟩

theorem map {f : α → γ} {g : β → δ} (h : Rearranged R xs ys) (hfg : ∀ x y, R x y → Q (f x) (g y)) :
    Rearranged Q (xs.map f) (ys.map g) := by
  obtain ⟨mid, hperm, hall⟩ := h
  exact ⟨mid.map f, hperm.map f, List.forall₂_map_left_iff.2 (List.forall₂_map_right_iff.2 (hall.imp hfg))⟩

theorem exists_of_mem (h : Rearranged R xs ys) {y : β} (hy : y ∈ ys) : ∃ x ∈ xs, R x y := by
  obtain ⟨mid, hperm, hall⟩ := h
  obtain ⟨x, hx, hxy⟩ := forall₂_exists_left hall hy
  exact ⟨x, hperm.mem_iff.1 hx, hxy⟩

/-- Unique keys find corresponding members. -/
theorem find? {κ : Type} [DecidableEq κ] {f : α → κ} {g : β → κ} (h : Rearranged R xs ys)
    (hfg : ∀ x y, R x y → g y = f x) (hnodup : (xs.map f).Nodup) (n : κ) :
    Option.Rel R (xs.find? fun x => f x == n) (ys.find? fun y => g y == n) := by
  obtain ⟨mid, hperm, hall⟩ := h
  have hmid : Option.Rel R (mid.find? fun x => f x == n) (ys.find? fun y => g y == n) := by
    clear hperm
    induction hall with
    | nil => exact .none
    | @cons x y mid ys hxy _ ih =>
      rw [List.find?_cons, List.find?_cons, hfg x y hxy]
      split
      · exact .some hxy
      · exact ih
  have hsame : (xs.find? fun x => f x == n) = mid.find? fun x => f x == n := by
    have hcases : ∀ {x : α} {zs : List α}, (zs.map f).Nodup → x ∈ zs → f x = n →
        (zs.find? fun x => f x == n) = some x := by
      intro x zs hzs hx hn
      induction zs with
      | nil => cases hx
      | cons z zs ih =>
        rw [List.map_cons, List.nodup_cons] at hzs
        rw [List.find?_cons]
        rcases List.mem_cons.1 hx with rfl | hx
        · simp [hn]
        · have hne : f z ≠ n := fun hz => hzs.1 (List.mem_map.2 ⟨x, hx, hn.trans hz.symm⟩)
          rw [beq_eq_false_iff_ne.2 hne]
          exact ih hzs.2 hx
    cases hfind : mid.find? fun x => f x == n with
    | some x =>
      have hx := List.find?_some hfind
      exact hcases hnodup (hperm.mem_iff.1 (List.mem_of_find?_eq_some hfind)) (by simpa using hx)
    | none =>
      rw [List.find?_eq_none] at hfind ⊢
      exact fun x hx => hfind x (hperm.mem_iff.2 hx)
  rw [hsame]
  exact hmid

/-- What succeeds one by one succeeds in any order. -/
theorem mapM {f : α → Attempt γ} {g : β → Attempt γ} {zs : List γ} (h : Rearranged R xs ys)
    (hfg : ∀ x y, R x y → ∀ z, (f x).outcome = .ok z → (g y).outcome = .ok z) (hf : (xs.mapM f).outcome = .ok zs) :
    ∃ zs', (ys.mapM g).outcome = .ok zs' ∧ zs'.Perm zs := by
  obtain ⟨mid, hperm, hall⟩ := h
  obtain ⟨zs', hmid, hzs⟩ := List.perm_comp_forall₂ hperm (Attempt.mapM_eq_ok.1 hf)
  refine ⟨zs', Attempt.mapM_eq_ok.2 ?_, hzs⟩
  clear hperm hzs hf
  induction hall generalizing zs' with
  | nil =>
    cases hmid
    exact .nil
  | cons hxy _ ih =>
    obtain ⟨hz, hrest⟩ | _ := hmid
    exact .cons (hfg _ _ hxy _ ‹_›) (ih _ ‹_›)

end Rearranged

/-! ## Sequences -/

/-- The conditions of a branch in another order. -/
inductive JumpAction.Reorders : JumpAction → JumpAction → Prop
  | branch (window : String) {conditions conditions' : List Condition} (h : conditions'.Perm conditions) :
      Reorders (.branch window conditions) (.branch window conditions')
  | goto (destination : Reference) : Reorders (.goto destination) (.goto destination)
  | terminate : Reorders .terminate .terminate

structure Jump.Reorders (j j' : Jump) : Prop where
  name : j'.name = j.name
  time : j'.time = j.time
  action : j.action.Reorders j'.action

/-- The jumps of a control channel in another order. -/
inductive Role.Reorders : Role → Role → Prop
  | output : Reorders .output .output
  | counter : Reorders .counter .counter
  | control {jumps jumps' : List Jump} (h : Rearranged Jump.Reorders jumps jumps') :
      Reorders (.control jumps) (.control jumps')

structure Channel.Reorders (c c' : Channel) : Prop where
  name : c'.name = c.name
  windows : c'.windows.Perm c.windows
  role : c.role.Reorders c'.role

/-- The same sequence, listed in another order. -/
structure Sequence.Reorders (s s' : Sequence) : Prop where
  channels : Rearranged Channel.Reorders s.channels s'.channels
  rest : s' = { s with channels := s'.channels }

theorem Jump.Reorders.symm {j j' : Jump} (h : j.Reorders j') : j'.Reorders j := by
  refine ⟨h.name.symm, h.time.symm, ?_⟩
  have haction := h.action
  generalize j.action = a at haction ⊢
  generalize j'.action = a' at haction ⊢
  cases haction with
  | branch window hperm => exact .branch window hperm.symm
  | goto destination => exact .goto destination
  | terminate => exact .terminate

theorem Channel.Reorders.symm {c c' : Channel} (h : c.Reorders c') : c'.Reorders c := by
  refine ⟨h.name.symm, h.windows.symm, ?_⟩
  have hrole := h.role
  generalize c.role = r at hrole ⊢
  generalize c'.role = r' at hrole ⊢
  cases hrole with
  | output => exact .output
  | counter => exact .counter
  | control hjumps => exact .control (hjumps.symm.mono fun _ _ hj => hj.symm)

theorem Channel.Reorders.jumps {c c' : Channel} (h : c.Reorders c') : Rearranged Jump.Reorders c.jumps c'.jumps := by
  have hrole := h.role
  unfold Channel.jumps
  generalize c.role = r at hrole ⊢
  generalize c'.role = r' at hrole ⊢
  cases hrole with
  | output => exact ⟨[], .nil, .nil⟩
  | counter => exact ⟨[], .nil, .nil⟩
  | control hjumps => exact hjumps

namespace Sequence.Reorders

variable {s s' : Sequence}

theorem symm (h : s.Reorders s') : s'.Reorders s := by
  refine ⟨h.channels.symm.mono fun _ _ hc => hc.symm, ?_⟩
  rw [h.rest]

theorem hardware (h : s.Reorders s') : s'.hardware = s.hardware := by rw [h.rest]

theorem windows (h : s.Reorders s') : Rearranged (fun e e' : Window × Channel => e'.1 = e.1) s.windows s'.windows :=
  h.channels.flatMap fun _ _ hc => (Rearranged.of_perm hc.windows).map fun _ _ heq => heq.symm

theorem jumps (h : s.Reorders s') : Rearranged (fun e e' : Jump × Channel => e.1.Reorders e'.1 ∧ e'.2.name = e.2.name)
    s.jumps s'.jumps :=
  h.channels.flatMap fun _ _ hc => hc.jumps.map fun _ _ hj => ⟨hj, hc.name⟩

theorem hasJumps (h : s.Reorders s') : s'.hasJumps = s.hasJumps := by
  have hlength := h.jumps.length_eq
  unfold Sequence.hasJumps
  rw [Bool.eq_iff_iff]
  simp only [Bool.not_eq_true', List.isEmpty_eq_false_iff, ← List.length_pos_iff, hlength]

end Sequence.Reorders

/-! ## Names -/

namespace Sequence

/-- The names of windows are used once. -/
theorem windowNames_of_claimChannels {cs : List Channel} : ∀ {used used' : Names}, used.windows.Nodup →
    cs.foldlM claimChannel used = .ok used' →
    (used.windows ++ cs.flatMap fun c => c.windows.map Window.name).Nodup := by
  induction cs with
  | nil => exact fun hnodup _ => by simpa using hnodup
  | cons c cs ih =>
    intro used used' hnodup h
    obtain ⟨used₁, h1, h2⟩ := Except.foldlM_cons_eq_ok.1 h
    obtain ⟨⟨⟩, -, h1⟩ := Except.bind_eq_ok.1 h1
    obtain ⟨windows, hwindows, h1⟩ := Except.bind_eq_ok.1 h1
    obtain ⟨jumps, -, h1⟩ := Except.bind_eq_ok.1 h1
    cases h1
    obtain ⟨rfl, hown, hfresh⟩ := claimNames_eq_ok hwindows
    have hall := ih (hnodup.append hown fun n hn hn' => (hfresh n hn').2 hn) h2
    rw [List.flatMap_cons, ← List.append_assoc]
    exact hall

theorem windowNames_of_verify {s : Sequence} (h : s.verify.outcome = .ok ()) :
    (s.windows.map fun e => e.1.name).Nodup := by
  obtain ⟨⟨⟩, -, h⟩ := Attempt.bind_eq_ok.1 h
  obtain ⟨⟨⟩, -, h⟩ := Attempt.bind_eq_ok.1 h
  obtain ⟨⟨⟩, -, h⟩ := Attempt.bind_eq_ok.1 h
  obtain ⟨⟨⟩, hnames, -⟩ := Attempt.bind_eq_ok.1 h
  obtain ⟨used, hfold, -⟩ := Except.bind_eq_ok.1 (Attempt.ofExcept_eq_ok.1 hnames)
  have hnodup := windowNames_of_claimChannels List.nodup_nil hfold
  rw [windows, List.map_flatMap]
  simpa [Function.comp_def] using hnodup

namespace Reorders

variable {s s' : Sequence} (h : s.Reorders s') (hverify : s.verify.outcome = .ok ())

include h hverify

theorem window?_eq (name : String) : s'.window? name = s.window? name := by
  have hfind := h.windows.find? (f := fun e => e.1.name) (g := fun e => e.1.name)
    (fun e e' heq => congrArg Window.name heq) (windowNames_of_verify hverify) name
  unfold window?
  generalize s.windows.find? (fun e => e.1.name == name) = a at hfind ⊢
  generalize s'.windows.find? (fun e => e.1.name == name) = b at hfind ⊢
  cases hfind with
  | none => rfl
  | some heq => exact congrArg some heq

theorem jump?_rel (name : String) : Option.Rel Jump.Reorders (s.jump? name) (s'.jump? name) := by
  have hfind := h.jumps.find? (f := fun e => e.1.name) (g := fun e => e.1.name)
    (fun e e' heq => heq.1.name) (verified_of_verify hverify).jumpNames name
  unfold jump?
  generalize s.jumps.find? (fun e => e.1.name == name) = a at hfind ⊢
  generalize s'.jumps.find? (fun e => e.1.name == name) = b at hfind ⊢
  cases hfind with
  | none => exact .none
  | some heq => exact .some heq.1

end Reorders

end Sequence

/-! ## Times -/

/-- The timeline of the other order. -/
def Timeline.over (t : Timeline) (s' : Sequence) : Timeline := { t with sequence := s' }

namespace Timeline

variable {t : Timeline} {s' : Sequence} (h : t.sequence.Reorders s') (hverify : t.sequence.verify.outcome = .ok ())

include h hverify

theorem pointOf?_over (r : Reference) : (t.over s').pointOf? r = t.pointOf? r := by
  cases r with
  | start window => exact congrArg (Option.map Window.start) (h.window?_eq hverify window)
  | finish window => exact congrArg (Option.map Window.finish) (h.window?_eq hverify window)
  | control => rfl
  | jump name =>
    have hjump := h.jump?_rel hverify name
    change (s'.jump? name).map Jump.time = (t.sequence.jump? name).map Jump.time
    generalize t.sequence.jump? name = a at hjump ⊢
    generalize s'.jump? name = b at hjump ⊢
    cases hjump with
    | none => rfl
    | some hj => exact congrArg some hj.time

theorem timeFrom_over (fuel : Nat) : ∀ (active : List Reference) (r : Reference) (owner : String),
    (t.over s').timeFrom fuel active r owner = t.timeFrom fuel active r owner := by
  induction fuel with
  | zero =>
    intro active r owner
    cases r <;> rfl
  | succ fuel ih =>
    intro active r owner
    cases r with
    | control => rfl
    | start | finish | jump =>
      simp only [timeFrom, pointOf?_over h hverify, ih]
      rfl

theorem timeOf_over (r : Reference) (owner : String) : (t.over s').timeOf r owner = t.timeOf r owner := by
  have hdepth : (t.over s').depth = t.depth := by
    change 2 * s'.windows.length + s'.jumps.length + 1 = _
    rw [h.windows.length_eq, h.jumps.length_eq]
    rfl
  rw [timeOf, timeOf, hdepth, timeFrom_over h hverify]

theorem latest_over {x : Binary64} (hx : t.latest = .ok x) : (t.over s').latest = .ok x := by
  obtain ⟨hall, rfl⟩ := latest_eq_ok.1 hx
  have hfinish : ∀ name, (t.over s').finishOf name = t.finishOf name := fun name => timeOf_over h hverify _ _
  have hjump : ∀ name, (t.over s').jumpTime name = t.jumpTime name := fun name => timeOf_over h hverify _ _
  refine latest_eq_ok.2 ⟨fun c' hc' => ?_, ?_⟩
  · obtain ⟨c, hc, hcc⟩ := h.channels.exists_of_mem hc'
    refine ⟨fun w hw => ?_, fun j' hj' => ?_⟩
    · rw [hfinish]
      exact (hall c hc).1 w (hcc.windows.mem_iff.1 hw)
    · obtain ⟨j, hj, hjj⟩ := hcc.jumps.exists_of_mem hj'
      rw [hjump, hjj.name]
      exact (hall c hc).2 j hj
  · have hevents : Rearranged Eq t.events (t.over s').events := by
      refine h.channels.flatMap fun c c' hcc => ?_
      refine Rearranged.append ?_ ?_
      · simp only [hfinish]
        exact .of_perm (hcc.windows.filterMap _)
      · simp only [hjump, List.filterMap_eq_flatMap_toList]
        refine hcc.jumps.flatMap fun j j' hjj => ?_
        rw [hjj.name]
        exact .of_perm (.refl _)
    exact (Binary64.foldl_max_perm hevents.perm fun _ => le_refl _).symm

end Timeline

/-! ## Pulses -/

namespace Interval

/-- Intervals in order, with gaps between them. -/
structure Gapped (ys : List Interval) : Prop where
  nonempty : ∀ y ∈ ys, y.start < y.finish
  apart : ys.Pairwise fun a b => a.finish < b.start

namespace Gapped

variable {y z : Interval} {ys zs : List Interval}

theorem tail (h : Gapped (z :: zs)) : Gapped zs :=
  ⟨fun x hx => h.nonempty x (List.mem_cons_of_mem _ hx), (List.pairwise_cons.1 h.apart).2⟩

theorem eq_nil (h : Gapped zs) (hno : ∀ t, ¬ ∃ z ∈ zs, z.Has t) : zs = [] := by
  cases zs with
  | nil => rfl
  | cons z zs => exact absurd ⟨z, List.mem_cons_self, le_refl _, h.nonempty z List.mem_cons_self⟩ (hno z.start)

/-- The first interval begins at the first tick. -/
theorem start_le (h : Gapped (z :: zs)) (hy : y.start < y.finish) (hticks : ∀ t, y.Has t → ∃ x ∈ z :: zs, x.Has t) :
    z.start ≤ y.start := by
  obtain ⟨x, hx, hlo, -⟩ := hticks y.start ⟨le_refl _, hy⟩
  rcases List.mem_cons.1 hx with rfl | hx
  · exact hlo
  · have := (List.pairwise_cons.1 h.apart).1 x hx
    have := h.nonempty z List.mem_cons_self
    omega

/-- It ends where the ticks have a gap. -/
theorem finish_le (h : Gapped (z :: zs)) (hstart : y.start = z.start) (hticks : ∀ t, y.Has t → ∃ x ∈ z :: zs, x.Has t) :
    y.finish ≤ z.finish := by
  by_contra hlt
  have hz := h.nonempty z List.mem_cons_self
  obtain ⟨x, hx, hlo, hhi⟩ := hticks z.finish ⟨by omega, by omega⟩
  rcases List.mem_cons.1 hx with rfl | hx
  · omega
  · have := (List.pairwise_cons.1 h.apart).1 x hx
    omega

/-- The ticks of the other intervals come after the first one. -/
theorem has_tail (h : Gapped (y :: ys)) {t : Int} (hall : ∀ t, (∃ x ∈ y :: ys, x.Has t) → ∃ x ∈ y :: zs, x.Has t)
    (ht : ∃ x ∈ ys, x.Has t) : ∃ x ∈ zs, x.Has t := by
  obtain ⟨x, hx, hlo, hhi⟩ := ht
  have := (List.pairwise_cons.1 h.apart).1 x hx
  obtain ⟨x', hx', hlo', hhi'⟩ := hall t ⟨x, List.mem_cons_of_mem _ hx, hlo, hhi⟩
  rcases List.mem_cons.1 hx' with rfl | hx'
  · omega
  · exact ⟨x', hx', hlo', hhi'⟩

end Gapped

/-- Intervals with gaps between them are given by their ticks. -/
theorem eq_of_ticks {ys : List Interval} : ∀ {zs : List Interval}, Gapped ys → Gapped zs →
    (∀ t, (∃ y ∈ ys, y.Has t) ↔ ∃ z ∈ zs, z.Has t) → ys = zs := by
  induction ys with
  | nil =>
    intro zs _ hzs hticks
    exact (hzs.eq_nil fun t ht => by simpa using (hticks t).2 ht).symm
  | cons y ys ih =>
    intro zs hys hzs hticks
    cases zs with
    | nil => exact hys.eq_nil fun t ht => by simpa using (hticks t).1 ht
    | cons z zs =>
      have hy : ∀ t, y.Has t → ∃ x ∈ z :: zs, x.Has t := fun t ht => (hticks t).1 ⟨y, List.mem_cons_self, ht⟩
      have hz : ∀ t, z.Has t → ∃ x ∈ y :: ys, x.Has t := fun t ht => (hticks t).2 ⟨z, List.mem_cons_self, ht⟩
      have hstart : y.start = z.start := le_antisymm (hys.start_le (hzs.nonempty z List.mem_cons_self) hz)
        (hzs.start_le (hys.nonempty y List.mem_cons_self) hy)
      have hfinish : y.finish = z.finish := le_antisymm (hzs.finish_le hstart hy) (hys.finish_le hstart.symm hz)
      obtain rfl : y = z := by
        cases y
        cases z
        rw [mk.injEq]
        exact ⟨hstart, hfinish⟩
      refine congrArg _
        (ih hys.tail hzs.tail fun t => ⟨hys.has_tail fun t => (hticks t).1, hzs.has_tail fun t => (hticks t).2⟩)

/-- The order of intervals does not matter for their union. -/
theorem merge_perm {xs ys : List Interval} (h : ys.Perm xs) (hne : ∀ x ∈ xs, x.start < x.finish) :
    merge ys = merge xs := by
  have hxs := mergesTo_merge hne
  have hys := mergesTo_merge fun y hy => hne y (h.mem_iff.1 hy)
  refine eq_of_ticks ⟨hys.nonempty, hys.apart⟩ ⟨hxs.nonempty, hxs.apart⟩ fun t => ?_
  rw [hys.ticks, hxs.ticks]
  simp only [h.mem_iff]

end Interval

namespace Pulse

variable {t : Timeline} {s' : Sequence} (h : t.sequence.Reorders s') (hverify : t.sequence.verify.outcome = .ok ())

theorem lineOf_of_reorders {c c' : Channel} (hc : c.Reorders c') (hw : Hardware) : lineOf hw c' = lineOf hw c := by
  have hrole := hc.role
  unfold lineOf
  rw [hc.name]
  generalize c.role = r at hrole ⊢
  generalize c'.role = r' at hrole ⊢
  cases hrole <;> rfl

include h hverify

theorem ofChannel_over {terminator : Int} {c c' : Channel} (hc : c.Reorders c') {ps : List Pulse}
    (hps : (ofChannel t terminator c).outcome = .ok ps) : (ofChannel (t.over s') terminator c').outcome = .ok ps := by
  have hline : lineOf (t.over s').sequence.hardware c' = lineOf t.sequence.hardware c := by
    rw [show (t.over s').sequence.hardware = t.sequence.hardware from h.hardware]
    exact lineOf_of_reorders hc _
  rcases ofChannel_eq_ok.1 hps with ⟨hnone, rfl⟩ | ⟨line, intervals, hsome, hintervals, rfl⟩
  · exact ofChannel_eq_ok.2 (.inl ⟨hline.trans hnone, rfl⟩)
  · have hone : ∀ w w' : Window, w = w' → ∀ z, (intervalOf t terminator w).outcome = .ok z →
        (intervalOf (t.over s') terminator w').outcome = .ok z := by
      rintro w _ rfl z hz
      obtain ⟨start, finish, hstart, hfinish, rfl⟩ := intervalOf_eq_ok.1 hz
      refine intervalOf_eq_ok.2 ⟨start, finish, (t.timeOf_over h hverify _ _).trans hstart,
        (t.timeOf_over h hverify _ _).trans hfinish, ?_⟩
      rw [show (t.over s').sequence.hardware = t.sequence.hardware from h.hardware]
    obtain ⟨intervals', hintervals', hperm⟩ := (Rearranged.of_perm hc.windows).mapM hone hintervals
    refine ofChannel_eq_ok.2 (.inr ⟨line, intervals', hline.trans hsome, hintervals', ?_⟩)
    rw [Interval.merge_perm hperm.flatten]
    intro x hx
    obtain ⟨xs, hxs, hx⟩ := List.mem_flatten.1 hx
    obtain ⟨w, -, hw⟩ := forall₂_exists_left (Attempt.mapM_eq_ok.1 hintervals) hxs
    exact start_lt_finish_of_intervalOf hw x hx

theorem channels_over {terminator : Int} {pulses : List (List Pulse)}
    (hps : (t.sequence.channels.mapM (ofChannel t terminator)).outcome = .ok pulses) :
    ∃ pulses', (s'.channels.mapM (ofChannel (t.over s') terminator)).outcome = .ok pulses' ∧ pulses'.Perm pulses :=
  h.channels.mapM (fun _ _ hc _ hz => ofChannel_over h hverify hc hz) hps

end Pulse

end PulseSequencer
