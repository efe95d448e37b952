import PulseSequencer.Proofs.Emission
import PulseSequencer.Proofs.Reordering

/-!
# Ticks of jumps in any order

Jumps that meet are sorted out by their times, later ones first. A jump gives way only to later ones, so where all of
them end up does not depend on who came first.

* `Slot.Stable` : every tick that a slot would have liked better is taken by a later one;
* `Slot.stable_of_settles`, `Slot.stable_of_assigns` : the slots of a sequence end up that way;
* `Slot.exists_settles`, `Slot.exists_assigns` : nobody is sent further back than in any stable order;
* `Slot.exists_twins` : the ticks of two orders are the same.
-/

namespace PulseSequencer

namespace Slot

/-- Slots on ticks of their own, none of them after the tick `ρ` of its time. The ticks between are taken by later
ones. -/
structure Stable (ρ : Binary64 → Int) (placed : List Slot) : Prop where
  nodup : (placed.map tick).Nodup
  nonneg : ∀ s ∈ placed, 0 ≤ s.tick
  le : ∀ s ∈ placed, s.tick ≤ ρ s.time
  taken : ∀ s ∈ placed, ∀ c, s.tick < c → c ≤ ρ s.time → ∃ s' ∈ placed, s'.tick = c ∧ s.time < s'.time

variable {ρ : Binary64 → Int}

theorem Stable.eq_of_tick {placed : List Slot} (h : Stable ρ placed) {a b : Slot} (ha : a ∈ placed) (hb : b ∈ placed)
    (htick : a.tick = b.tick) : a = b := List.inj_on_of_nodup_map h.nodup ha hb htick

/-- Of two slots at a tick, the one that is kept is later. -/
theorem lt_of_ranked {moving other : Slot} (hlt : moving.time < other.time ∨ other.time < moving.time) :
    (ranked moving other).2.time < (ranked moving other).1.time := by
  unfold ranked
  split
  · assumption
  · exact hlt.resolve_left ‹_›

theorem ranked_cases (moving other : Slot) : ranked moving other = (other, moving) ∨
    ranked moving other = (moving, other) := by
  unfold ranked
  split
  · exact .inl rfl
  · exact .inr rfl

/-- Every tick after `n` that a time would like better is taken by a later slot. -/
def Blocked (ρ : Binary64 → Int) (placed : List Slot) (time : Binary64) (n : Int) : Prop :=
  ∀ c, n < c → c ≤ ρ time → ∃ s ∈ placed, s.tick = c ∧ time < s.time

section Exchange

variable {placed : List Slot} {moving other : Slot} {n : Int} (h : Stable ρ placed) (hnonneg : 0 ≤ n)
  (hreach : Blocked ρ placed moving.time n) (hle : n ≤ ρ moving.time) (hother : other ∈ placed) (htick : other.tick = n)
  (hlt : moving.time < other.time ∨ other.time < moving.time)

include h hreach hle hother htick

/-- Both slots are blocked by later ones, whoever stays. -/
theorem blocked_ranked : (n ≤ ρ (ranked moving other).1.time ∧ Blocked ρ placed (ranked moving other).1.time n) ∧
    n ≤ ρ (ranked moving other).2.time ∧ Blocked ρ placed (ranked moving other).2.time n := by
  have hplaced : n ≤ ρ other.time ∧ Blocked ρ placed other.time n :=
    ⟨htick ▸ h.le _ hother, fun c hc => h.taken _ hother c (htick ▸ hc)⟩
  rcases ranked_cases moving other with hrank | hrank <;> rw [hrank]
  · exact ⟨hplaced, hle, hreach⟩
  · exact ⟨⟨hle, hreach⟩, hplaced⟩

include hlt hnonneg

theorem stable_exchange : Stable ρ (replace placed n (ranked moving other).1) := by
  obtain ⟨⟨hkeep, htaken⟩, -⟩ := blocked_ranked h hreach hle hother htick
  have hnew : { (ranked moving other).1 with tick := n } ∈ replace placed n (ranked moving other).1 :=
    mem_replace.2 (.inr ⟨rfl, other, hother, htick⟩)
  -- a slot that took a tick is still there, or a later one is
  have hstill : ∀ {x s : Slot} {c : Int}, s ∈ placed → s.tick = c → x.time < s.time →
      ∃ s' ∈ replace placed n (ranked moving other).1, s'.tick = c ∧ x.time < s'.time := by
    intro x s c hs hc hx
    by_cases hn : s.tick = n
    · obtain rfl : s = other := h.eq_of_tick hs hother (hn.trans htick.symm)
      refine ⟨_, hnew, hn.symm.trans hc, ?_⟩
      rcases ranked_cases moving s with hrank | hrank
      · rw [hrank]
        exact hx
      · have hlater := lt_of_ranked hlt
        rw [hrank] at hlater ⊢
        exact Binary64.lt_trans hx hlater
    · exact ⟨s, mem_replace.2 (.inl ⟨hs, hn⟩), hc, hx⟩
  refine ⟨by rw [map_tick_replace]; exact h.nodup, fun s hs => ?_, fun s hs => ?_, fun s hs c hlo hhi => ?_⟩
  all_goals rcases mem_replace.1 hs with ⟨hs, -⟩ | ⟨rfl, -⟩
  · exact h.nonneg s hs
  · exact hnonneg
  · exact h.le s hs
  · exact hkeep
  · obtain ⟨s', hs', hc, hlt'⟩ := h.taken s hs c hlo hhi
    exact hstill hs' hc hlt'
  · obtain ⟨s', hs', hc, hlt'⟩ := htaken c hlo hhi
    exact hstill hs' hc hlt'

omit hnonneg in
/-- What the slot that moves on cannot have is taken by later ones. -/
theorem blocked_exchange :
    Blocked ρ (replace placed n (ranked moving other).1) (ranked moving other).2.time (n - 1) := by
  intro c hlo hhi
  by_cases hc : c = n
  · exact ⟨_, mem_replace.2 (.inr ⟨rfl, other, hother, htick⟩), hc.symm, lt_of_ranked hlt⟩
  · obtain ⟨-, -, hblocked⟩ := blocked_ranked h hreach hle hother htick
    obtain ⟨s, hs, hsc, hst⟩ := hblocked c (by omega) hhi
    exact ⟨s, mem_replace.2 (.inl ⟨hs, by omega⟩), hsc, hst⟩

end Exchange

/-- The times of all slots differ, whatever the step. -/
theorem apart_exchange {placed : List Slot} {moving other : Slot} {n : Int} (hnodup : (placed.map tick).Nodup)
    (hother : other ∈ placed) (htick : other.tick = n)
    (hapart : ((moving :: placed).map time).Pairwise fun x y => x < y ∨ y < x) :
    (((ranked moving other).2 :: replace placed n (ranked moving other).1).map time).Pairwise
      fun x y => x < y ∨ y < x :=
  hapart.perm (times_exchange hnodup hother htick).symm Or.symm

/-- A slot takes a tick that is free, if it cannot have a later one. -/
theorem Stable.append {placed : List Slot} {moving : Slot} {n : Int} (h : Stable ρ placed) (hnonneg : 0 ≤ n)
    (hfree : ∀ s ∈ placed, s.tick ≠ n) (hle : n ≤ ρ moving.time) (hreach : Blocked ρ placed moving.time n) :
    Stable ρ (placed ++ [{ moving with tick := n }]) := by
  refine ⟨nodup_free h.nodup hfree, fun s hs => ?_, fun s hs => ?_, fun s hs c hlo hhi => ?_⟩
  all_goals rcases List.mem_append.1 hs with hs | hs
  · exact h.nonneg s hs
  · rw [List.mem_singleton.1 hs]
    exact hnonneg
  · exact h.le s hs
  · rw [List.mem_singleton.1 hs]
    exact hle
  · obtain ⟨s', hs', hc⟩ := h.taken s hs c hlo hhi
    exact ⟨s', List.mem_append_left _ hs', hc⟩
  · rw [List.mem_singleton.1 hs] at hlo hhi ⊢
    obtain ⟨s', hs', hc⟩ := hreach c hlo hhi
    exact ⟨s', List.mem_append_left _ hs', hc⟩

/-- The way of a slot keeps the others as they should be. -/
theorem stable_of_settles {start : Int} {first : Slot} {slots out : List Slot} (hway : Settles start first slots out)
    (h : Stable ρ slots) (hapart : ((first :: slots).map time).Pairwise fun x y => x < y ∨ y < x)
    (hle : start ≤ ρ first.time) (hreach : Blocked ρ slots first.time start)
    (hlimit : start ≤ Binary64.significandLimit) : Stable ρ out := by
  induction hway with
  | free hnonneg hfree => exact h.append hnonneg hfree hle hreach
  | meet hnonneg hother htick _ _ _ ih =>
    have hlt := (List.pairwise_cons.1 hapart).1 _ (List.mem_map_of_mem hother)
    obtain ⟨-, hshift, -⟩ := blocked_ranked h hreach hle hother htick
    rw [Tick.back_eq hnonneg hlimit] at ih
    exact ih (stable_exchange h hnonneg hreach hle hother htick hlt) (apart_exchange h.nodup hother htick hapart)
      (by omega) (blocked_exchange h hreach hle hother htick hlt) (by omega)

/-- Where a slot could stand that is not behind it, no earlier one stands: it would have had to give way. -/
theorem Stable.tick_ne {full : List Slot} (h : Stable ρ full) {a x : Slot} {n : Int} (ha : a ∈ full) (hx : x ∈ full)
    (hlt : x.time < a.time) (hle : a.tick ≤ n) (hn : n ≤ ρ a.time) : x.tick ≠ n := by
  intro hxn
  by_cases han : a.tick = n
  · rw [h.eq_of_tick ha hx (han.trans hxn.symm)] at hlt
    exact Binary64.lt_irrefl _ hlt
  · obtain ⟨y, hy, hyn, hay⟩ := h.taken a ha n (by omega) hn
    rw [h.eq_of_tick hy hx (hyn.trans hxn.symm)] at hay
    exact Binary64.lt_irrefl _ (Binary64.lt_trans hlt hay)

/-- A slot of another stable order, as the bound of one that is on its way. -/
def Bounds (full : List Slot) (time : Binary64) (tick : Int) : Prop :=
  ∃ a ∈ full, a.time = time ∧ a.tick ≤ tick

/-- No slot is sent further back than in a stable order. -/
theorem exists_settles {full : List Slot} (hfull : Stable ρ full) {n : Nat}
    (hlimit : n ≤ Binary64.significandLimit + 1) :
    ∀ {moving : Slot} {placed : List Slot}, Stable ρ placed →
      ((moving :: placed).map time).Pairwise (fun x y => x < y ∨ y < x) → (n : Int) - 1 ≤ ρ moving.time →
      Blocked ρ placed moving.time ((n : Int) - 1) → (∀ s ∈ placed, Bounds full s.time s.tick) →
      Bounds full moving.time ((n : Int) - 1) →
      ∃ res, Settles ((n : Int) - 1) moving placed res ∧ ∀ s ∈ res, Bounds full s.time s.tick := by
  induction n with
  | zero =>
    rintro moving placed - - - - - ⟨a, ha, -, hle⟩
    have := hfull.nonneg a ha
    omega
  | succ n ih =>
    intro moving placed h hapart hle hreach hbounds hmoving
    rw [show ((n + 1 : Nat) : Int) - 1 = n by omega] at hle hreach hmoving ⊢
    have hnonneg : 0 ≤ (n : Int) := Int.natCast_nonneg n
    by_cases hfree : ∀ s ∈ placed, s.tick ≠ n
    · refine ⟨_, .free hnonneg hfree, List.forall_mem_append.2 ⟨hbounds, List.forall_mem_singleton.2 hmoving⟩⟩
    push Not at hfree
    obtain ⟨other, hother, htick⟩ := hfree
    have hlt := (List.pairwise_cons.1 hapart).1 other.time (List.mem_map_of_mem hother)
    have hback : Tick.back n = n - 1 := Tick.back_eq hnonneg (by omega)
    have hboth : Bounds full (ranked moving other).1.time n ∧ Bounds full (ranked moving other).2.time n := by
      have hother' := hbounds other hother
      rw [htick] at hother'
      rcases ranked_cases moving other with hrank | hrank <;> rw [hrank]
      · exact ⟨hother', hmoving⟩
      · exact ⟨hmoving, hother'⟩
    obtain ⟨⟨a, ha, hat, hale⟩, x, hx, hxt, hxle⟩ := hboth
    obtain ⟨⟨hkeep, -⟩, hshift, -⟩ := blocked_ranked h hreach hle hother htick
    -- the other order has the later slot at the tick or before it, so the earlier one is further in front there as well
    have hne : x.tick ≠ n := hfull.tick_ne ha hx (hat ▸ hxt ▸ lt_of_ranked hlt) hale (hat ▸ hkeep)
    obtain ⟨res, hres, hall⟩ := ih (by omega) (stable_exchange h hnonneg hreach hle hother htick hlt)
      (apart_exchange h.nodup hother htick hapart) (by omega) (blocked_exchange h hreach hle hother htick hlt)
      (fun s hs => by
        rcases mem_replace.1 hs with ⟨hs, -⟩ | ⟨rfl, -⟩
        · exact hbounds s hs
        · exact ⟨a, ha, hat, hale⟩) ⟨x, hx, hxt, by omega⟩
    rw [← hback] at hres
    exact ⟨res, .meet hnonneg hother htick (Binary64.equal_eq_false_of_lt hlt.symm) (by omega) hres, hall⟩

section Assign

theorem stable_nil : Stable ρ [] := ⟨List.nodup_nil, by simp, by simp, by simp⟩

/-- A slot that starts from the tick of its time is not kept from a later one. -/
theorem blocked_start (placed : List Slot) (time : Binary64) : Blocked ρ placed time (ρ time) := by
  intro c hlo hhi
  omega

/-- What one more slot needs to know of those that are placed. -/
theorem apart_cons {placed todo : List Slot} {s : Slot}
    (hapart : ((placed ++ s :: todo).map time).Pairwise fun x y => x < y ∨ y < x) :
    ((s :: placed).map time).Pairwise fun x y => x < y ∨ y < x := by
  have hall : ((s :: placed ++ todo).map time).Pairwise fun x y => x < y ∨ y < x :=
    hapart.perm (List.perm_middle.map time) Or.symm
  rw [List.map_append] at hall
  exact (List.pairwise_append.1 hall).1

theorem apart_settled {placed mid todo : List Slot} {n : Int} {s : Slot} (hnodup : (placed.map tick).Nodup)
    (hapart : ((placed ++ s :: todo).map time).Pairwise fun x y => x < y ∨ y < x) (hway : Settles n s placed mid) :
    ((mid ++ todo).map time).Pairwise fun x y => x < y ∨ y < x := by
  refine hapart.perm ?_ Or.symm
  rw [List.map_append, List.map_append]
  refine List.Perm.trans ?_ ((times_of_settles hway hnodup).append_right _).symm
  exact List.perm_middle

variable {placed todo res : List Slot} (htick : ∀ s ∈ todo, s.tick = ρ s.time)
  (hlimit : ∀ s ∈ todo, s.tick ≤ Binary64.significandLimit) (hplaced : Stable ρ placed)
  (hapart : ((placed ++ todo).map time).Pairwise fun x y => x < y ∨ y < x)

include htick hlimit hplaced hapart

theorem stable_of_assigns (h : Assigns placed todo res) : Stable ρ res := by
  induction h with
  | nil => exact hplaced
  | @cons placed mid todo res s hone _ ih =>
    obtain ⟨hs, htick⟩ := List.forall_mem_cons.1 htick
    obtain ⟨hlarge, hlimit⟩ := List.forall_mem_cons.1 hlimit
    refine ih htick hlimit ?_ (apart_settled hplaced.nodup hapart hone)
    exact stable_of_settles hone hplaced (apart_cons hapart) hs.le (hs ▸ blocked_start placed s.time) hlarge

/-- Where a stable order exists, slots find their ticks, and none before those of that order. -/
theorem exists_assigns {full : List Slot} (hfull : Stable ρ full) (hmem : ∀ s ∈ todo, ∃ a ∈ full, a.time = s.time)
    (hbounds : ∀ s ∈ placed, Bounds full s.time s.tick) :
    ∃ res, Assigns placed todo res ∧ ∀ s ∈ res, Bounds full s.time s.tick := by
  induction todo generalizing placed with
  | nil => exact ⟨placed, .nil, hbounds⟩
  | cons s todo ih =>
    obtain ⟨hs, htick⟩ := List.forall_mem_cons.1 htick
    obtain ⟨hlarge, hlimit⟩ := List.forall_mem_cons.1 hlimit
    obtain ⟨⟨a, ha, hat⟩, hmem⟩ := List.forall_mem_cons.1 hmem
    have hale := hfull.le a ha
    have hnonneg := hfull.nonneg a ha
    rw [hat, ← hs] at hale
    have hstart : Blocked ρ placed s.time s.tick := hs ▸ blocked_start placed s.time
    obtain ⟨n, hn⟩ : ∃ n : Nat, s.tick = (n : Int) - 1 := ⟨(s.tick + 1).toNat, by omega⟩
    obtain ⟨mid, hone, hbounds⟩ : ∃ mid, Settles s.tick s placed mid ∧ ∀ x ∈ mid, Bounds full x.time x.tick := by
      rw [hn] at hs hstart hale ⊢
      exact exists_settles hfull (by omega) hplaced (apart_cons hapart) hs.le hstart hbounds ⟨a, ha, hat, hale⟩
    have hmid := stable_of_settles hone hplaced (apart_cons hapart) hs.le hstart hlarge
    obtain ⟨res, hrest, hall⟩ := ih htick hlimit hmid (apart_settled hplaced.nodup hapart hone) hmem hbounds
    exact ⟨res, .cons hone hrest, hall⟩

end Assign

/-- Slots of jumps that differ in the order of their conditions. -/
structure Twin (s s' : Slot) : Prop where
  jump : s.jump.Reorders s'.jump
  channel : s'.channel = s.channel
  time : s'.time = s.time
  tick : s'.tick = s.tick

end Slot

namespace Rearranged

variable {α β γ δ : Type} {R : α → β → Prop} {xs xs' : List α} {ys ys' : List β}

theorem perm_left (h : Rearranged R xs ys) (hp : xs'.Perm xs) : Rearranged R xs' ys := by
  obtain ⟨mid, hmid, hall⟩ := h
  exact ⟨mid, hmid.trans hp.symm, hall⟩

theorem perm_right (h : Rearranged R xs ys) (hp : ys'.Perm ys) : Rearranged R xs ys' := (h.symm.perm_left hp).symm

theorem of_map {f : α → γ} {g : β → δ} {Q : γ → δ → Prop} (h : Rearranged Q (xs.map f) (ys.map g)) :
    Rearranged (fun x y => Q (f x) (g y)) xs ys := by
  obtain ⟨mid, hmid, hall⟩ := h
  have himage : List.Forall₂ (fun a x => a = f x) (xs.map f) xs :=
    List.forall₂_map_left_iff.2 (List.forall₂_same.2 fun _ _ => rfl)
  obtain ⟨mid₀, himage, hperm⟩ := List.perm_comp_forall₂ hmid himage
  refine ⟨mid₀, hperm, ?_⟩
  have heq : mid = mid₀.map f := by
    clear hperm hmid hall
    induction himage with
    | nil => rfl
    | cons ha _ ih => rw [ha, ih, List.map_cons]
  rw [heq] at hall
  exact List.forall₂_map_left_iff.1 (List.forall₂_map_right_iff.1 hall)

theorem imp_of_mem {R' : α → β → Prop} (h : Rearranged R xs ys) (himp : ∀ x ∈ xs, ∀ y ∈ ys, R x y → R' x y) :
    Rearranged R' xs ys := by
  obtain ⟨mid, hmid, hall⟩ := h
  refine ⟨mid, hmid, List.forall₂_iff_get.2 ⟨hall.length_eq, fun i hi hi' => ?_⟩⟩
  exact himp _ (hmid.mem_iff.1 (List.get_mem _ _)) _ (List.get_mem _ _) (hall.get hi hi')

end Rearranged

namespace Slot

section Assigned

variable {raw res : List Slot} (h : Assigns [] raw res)

include h

theorem exists_assigned {s : Slot} (hs : s ∈ raw) : ∃ a ∈ res, a.time = s.time := by
  have hperm : (res.map subject).Perm (raw.map subject) := (perm_of_assigns h List.nodup_nil).2
  obtain ⟨a, ha, heq⟩ := List.mem_map.1 (hperm.mem_iff.2 (List.mem_map_of_mem hs))
  exact ⟨a, ha, congrArg (fun e => e.2.2) heq⟩

theorem apart_of_assigns (hapart : (raw.map time).Pairwise fun x y => x < y ∨ y < x) :
    (res.map time).Pairwise fun x y => x < y ∨ y < x := by
  have hperm : (res.map subject).Perm (raw.map subject) := (perm_of_assigns h List.nodup_nil).2
  rw [map_time] at hapart ⊢
  exact hapart.perm (hperm.map fun e => e.2.2).symm Or.symm

end Assigned

theorem eq_of_time {slots : List Slot} (hapart : (slots.map time).Pairwise fun x y => x < y ∨ y < x) {a b : Slot}
    (ha : a ∈ slots) (hb : b ∈ slots) (heq : a.time = b.time) : a = b := by
  refine List.inj_on_of_nodup_map (hapart.imp fun hlt hxy => ?_) ha hb heq
  rw [hxy] at hlt
  exact hlt.elim (Binary64.lt_irrefl _) (Binary64.lt_irrefl _)

/-- Jumps take the same ticks in every order: each order bounds the other one. -/
theorem exists_twins {raw raw' res : List Slot} {ρ : Binary64 → Int} (hraw : Rearranged Twin raw raw')
    (htick : ∀ s ∈ raw, s.tick = ρ s.time) (hlimit : ∀ s ∈ raw, s.tick ≤ Binary64.significandLimit)
    (hapart : (raw.map time).Pairwise fun x y => x < y ∨ y < x) (h : Assigns [] raw res) :
    ∃ res', Assigns [] raw' res' ∧ Rearranged Twin res res' := by
  have htick' : ∀ s ∈ raw', s.tick = ρ s.time := fun s hs => by
    obtain ⟨x, hx, htwin⟩ := hraw.exists_of_mem hs
    rw [htwin.tick, htwin.time, htick x hx]
  have hlimit' : ∀ s ∈ raw', s.tick ≤ Binary64.significandLimit := fun s hs => by
    obtain ⟨x, hx, htwin⟩ := hraw.exists_of_mem hs
    rw [htwin.tick]
    exact hlimit x hx
  have htimes : (raw'.map time).Perm (raw.map time) := (hraw.map fun x y htwin => htwin.time.symm).perm
  have hapart' : (raw'.map time).Pairwise fun x y => x < y ∨ y < x := hapart.perm htimes.symm Or.symm
  have hmem : ∀ s ∈ raw', ∃ a ∈ res, a.time = s.time := fun s hs => by
    obtain ⟨x, hx, htwin⟩ := hraw.exists_of_mem hs
    rw [htwin.time]
    exact exists_assigned h hx
  obtain ⟨res', h', hbounds⟩ := exists_assigns htick' hlimit' stable_nil hapart'
    (stable_of_assigns htick hlimit stable_nil hapart h) hmem (by simp)
  have hmem' : ∀ s ∈ raw, ∃ a ∈ res', a.time = s.time := fun s hs => by
    obtain ⟨x, hx, htwin⟩ := hraw.symm.exists_of_mem hs
    rw [← htwin.time]
    exact exists_assigned h' hx
  obtain ⟨res₁, h₁, hbounds'⟩ := exists_assigns htick hlimit stable_nil hapart
    (stable_of_assigns htick' hlimit' stable_nil hapart' h') hmem' (by simp)
  obtain rfl := eq_of_assigns h h₁
  refine ⟨res', h', ?_⟩
  have hsubjects : Rearranged (fun e e' : Jump × Binary64 × Binary64 => e.1.Reorders e'.1 ∧ e'.2 = e.2)
      (res.map subject) (res'.map subject) :=
    ((hraw.map fun x y htwin => ⟨htwin.jump, Prod.ext htwin.channel htwin.time⟩).perm_left
      (perm_of_assigns h List.nodup_nil).2).perm_right (perm_of_assigns h' List.nodup_nil).2
  refine hsubjects.of_map.imp_of_mem fun s hs s' hs' ⟨hjump, heq⟩ => ?_
  have htime : s'.time = s.time := congrArg Prod.snd heq
  refine ⟨hjump, congrArg Prod.fst heq, htime, ?_⟩
  obtain ⟨a, ha, hat, hle⟩ := hbounds s' hs'
  obtain ⟨a', ha', hat', hle'⟩ := hbounds' s hs
  rw [eq_of_time (apart_of_assigns h hapart) ha hs (hat.trans htime)] at hle
  rw [eq_of_time (apart_of_assigns h' hapart') ha' hs' (hat'.trans htime.symm)] at hle'
  omega

end Slot

end PulseSequencer
