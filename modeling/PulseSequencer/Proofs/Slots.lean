import PulseSequencer.Compiler.Branching
import PulseSequencer.Proofs.Attempt
import PulseSequencer.Proofs.Number
import PulseSequencer.Proofs.Sort

/-!
# Slots of jumps

* `Slot.Settles`, `Slot.settles_of_settle`, `Slot.Settles.settle_eq` : the way of a slot to its tick;
* `Slot.Assigns`, `Slot.assign_eq_ok` : the slots one after the other, each under the tick that it has been given;
* `Slot.perm_of_assigns` : giving every jump a tick of its own loses none and changes nothing but ticks;
* `Slot.Refusal`, `Slot.refusal_of_assign` : why slots fail;
* `Build.Serves`, `Build.exists_slot`, `Build.exists_jump` : the slots of a sequence are its jumps.
-/

namespace PulseSequencer

/-- Up to `2 ^ 53` the tick before is one tick away. -/
theorem Tick.back_eq {tick : Int} (hnonneg : 0 ≤ tick) (hlimit : tick ≤ Binary64.significandLimit) :
    Tick.back tick = tick - 1 := by
  have hpos : 0 < Binary64.significandLimit := by decide
  have hsub : Binary64.ofInt tick - 1 = Binary64.ofInt (tick - 1) := by
    rw [Binary64.ofInt_eq (by omega), Binary64.one_eq, Binary64.ofInt, Int.cast_sub, Int.cast_one, sub_eq_add_neg]
    rfl
  rw [back, hsub, Binary64.ofInt_eq (by omega)]
  exact Rat.floor_intCast _

theorem Binary64.equal_comm (x y : Binary64) : x.equal y = y.equal x := Bool.and_comm ..

namespace Slot

/-- What a slot is about, whatever its tick. -/
def subject (s : Slot) : Jump × Binary64 × Binary64 := (s.jump, s.channel, s.time)

theorem map_time (slots : List Slot) : slots.map time = (slots.map subject).map fun e => e.2.2 := by
  rw [List.map_map]
  rfl

/-! ## Two slots at a tick -/

/-- The slots with another one at a tick that is taken. -/
def replace (placed : List Slot) (n : Int) (keep : Slot) : List Slot :=
  placed.map fun s => if s.tick == n then { keep with tick := n } else s

theorem mem_replace {placed : List Slot} {keep s : Slot} {n : Int} : s ∈ replace placed n keep ↔
    (s ∈ placed ∧ s.tick ≠ n) ∨ (s = { keep with tick := n } ∧ ∃ x ∈ placed, x.tick = n) := by
  rw [replace, List.mem_map]
  constructor
  · rintro ⟨x, hx, rfl⟩
    split
    · rename_i hn
      exact .inr ⟨rfl, x, hx, beq_iff_eq.1 hn⟩
    · rename_i hn
      exact .inl ⟨hx, fun h => hn (beq_iff_eq.2 h)⟩
  · rintro (⟨hs, hn⟩ | ⟨rfl, x, hx, hn⟩)
    · exact ⟨s, hs, if_neg fun h => hn (beq_iff_eq.1 h)⟩
    · exact ⟨x, hx, if_pos (beq_iff_eq.2 hn)⟩

theorem map_tick_replace (placed : List Slot) (keep : Slot) (n : Int) :
    (replace placed n keep).map tick = placed.map tick := by
  rw [replace, List.map_map]
  refine List.map_congr_left fun s _ => ?_
  simp only [Function.comp_apply]
  split
  · rename_i heq
    exact (beq_iff_eq.1 heq).symm
  · rfl

/-- Exchanging the slot at a tick for another one. -/
theorem perm_replace {placed : List Slot} {other keep : Slot} {n : Int} (hnodup : (placed.map tick).Nodup)
    (hother : other ∈ placed) (htick : other.tick = n) :
    (other.subject :: (replace placed n keep).map subject).Perm (keep.subject :: placed.map subject) := by
  obtain ⟨pre, post, rfl⟩ := List.append_of_mem hother
  -- no other slot has the tick
  have hne : ∀ s ∈ pre ++ post, s.tick ≠ n := by
    rw [List.map_append, List.map_cons, List.nodup_append] at hnodup
    obtain ⟨-, hpost, hcross⟩ := hnodup
    intro s hs heq
    rcases List.mem_append.1 hs with hs | hs
    · exact hcross s.tick (List.mem_map.2 ⟨s, hs, rfl⟩) other.tick List.mem_cons_self (heq.trans htick.symm)
    · exact (List.nodup_cons.1 hpost).1 (List.mem_map.2 ⟨s, hs, heq.trans htick.symm⟩)
  have hsame : ∀ xs : List Slot, (∀ s ∈ xs, s ∈ pre ++ post) →
      (xs.map fun s => if s.tick == n then { keep with tick := n } else s) = xs := fun xs hxs => by
    refine (List.map_congr_left fun s hs => ?_).trans (List.map_id xs)
    rw [if_neg (by simpa using hne s (hxs s hs))]
    rfl
  rw [replace, List.map_append, List.map_cons, hsame pre fun s hs => List.mem_append_left _ hs,
    hsame post fun s hs => List.mem_append_right _ hs, if_pos (by simpa using htick), List.map_append, List.map_cons,
    List.map_append, List.map_cons]
  calc (other.subject :: (pre.map subject ++ keep.subject :: post.map subject)).Perm
        (other.subject :: keep.subject :: (pre.map subject ++ post.map subject)) := List.perm_middle.cons _
    _ |>.Perm (keep.subject :: other.subject :: (pre.map subject ++ post.map subject)) := .swap _ _ _
    _ |>.Perm (keep.subject :: (pre.map subject ++ other.subject :: post.map subject)) := List.perm_middle.symm.cons _

/-- A slot that is kept at its tick leaves everything as it is. -/
theorem replace_self {placed : List Slot} (hnodup : (placed.map tick).Nodup) {other : Slot} {n : Int}
    (hother : other ∈ placed) (htick : other.tick = n) : replace placed n other = placed := by
  refine (List.map_congr_left fun s hs => ?_).trans (List.map_id placed)
  split
  · rename_i hn
    have hs : s = other := List.inj_on_of_nodup_map hnodup hs hother ((beq_iff_eq.1 hn).trans htick.symm)
    rw [hs, ← htick]
    rfl
  · rfl

section Exchange

variable {placed : List Slot} {moving other : Slot} {n : Int} (hnodup : (placed.map tick).Nodup)
  (hother : other ∈ placed) (htick : other.tick = n)

include hnodup hother htick

theorem perm_exchange : ((ranked moving other).2.subject ::
    (replace placed n (ranked moving other).1).map subject).Perm (moving.subject :: placed.map subject) := by
  unfold ranked
  split
  · exact (perm_replace hnodup hother htick).cons_inv.cons _
  · exact perm_replace hnodup hother htick

theorem times_exchange : (((ranked moving other).2 :: replace placed n (ranked moving other).1).map time).Perm
    ((moving :: placed).map time) := by
  rw [map_time, map_time, List.map_cons, List.map_cons]
  exact (perm_exchange hnodup hother htick).map fun e => e.2.2

end Exchange

/-! ## The way of a slot -/

/-- The way of a slot from a tick on. It ends at the first tick that is free; at one that is taken, the slot of the
later time stays, and the other one goes on. -/
inductive Settles : Int → Slot → List Slot → List Slot → Prop
  | free {tick : Int} {moving : Slot} {placed : List Slot} (hnonneg : 0 ≤ tick) (hfree : ∀ s ∈ placed, s.tick ≠ tick) :
      Settles tick moving placed (placed ++ [{ moving with tick }])
  | meet {tick : Int} {moving other : Slot} {placed res : List Slot} (hnonneg : 0 ≤ tick) (hother : other ∈ placed)
      (htick : other.tick = tick) (hapart : other.time.equal moving.time = false) (hback : Tick.back tick < tick)
      (hrest : Settles (Tick.back tick) (ranked moving other).2 (replace placed tick (ranked moving other).1) res) :
      Settles tick moving placed res

/-- A slot on a tick that is free leaves all ticks different. -/
theorem nodup_free {placed : List Slot} {moving : Slot} {n : Int} (hnodup : (placed.map tick).Nodup)
    (hfree : ∀ s ∈ placed, s.tick ≠ n) : ((placed ++ [{ moving with tick := n }]).map tick).Nodup := by
  rw [List.map_append, List.map_cons, List.map_nil]
  refine hnodup.append (List.nodup_singleton _) fun t ht ht' => ?_
  obtain ⟨s, hs, rfl⟩ := List.mem_map.1 ht
  exact hfree s hs (List.mem_singleton.1 ht')

/-- A slot under its tick. -/
def entry (s : Slot) : Int × Slot := (s.tick, s)

theorem map_snd_entry (slots : List Slot) : (slots.map entry).map Prod.snd = slots := by
  rw [List.map_map]
  exact List.map_id slots

theorem find?_entry (slots : List Slot) (n : Int) :
    ((slots.map entry).find? fun e => e.1 == n) = (slots.find? fun s => s.tick == n).map entry := List.find?_map ..

theorem mem_of_find?_entry {slots : List Slot} {n key : Int} {s : Slot}
    (h : ((slots.map entry).find? fun e => e.1 == n) = some (key, s)) : s ∈ slots ∧ s.tick = n := by
  rw [find?_entry] at h
  obtain ⟨x, hx, hentry⟩ := Option.map_eq_some_iff.1 h
  cases hentry
  exact ⟨List.mem_of_find?_eq_some hx, by simpa using List.find?_some hx⟩

theorem put_entry (slots : List Slot) (n : Int) (keep : Slot) :
    put (slots.map entry) n keep = (replace slots n keep).map entry := by
  rw [put, replace, List.map_map, List.map_map]
  refine List.map_congr_left fun s _ => ?_
  by_cases hs : s.tick = n <;> simp [entry, hs]

theorem settles_of_settle {tick : Int} {moving : Slot} {slots : List Slot} {res : List (Int × Slot)}
    (h : (settle tick moving (slots.map entry)).outcome = .ok res) :
    ∃ out, Settles tick moving slots out ∧ out.map entry = res := by
  generalize hplaced : slots.map entry = placed at h
  fun_induction settle tick moving placed generalizing slots with
  | case1 => cases h
  | case2 tick moving placed hneg hfind =>
    cases h
    rw [← hplaced, find?_entry, Option.map_eq_none_iff, List.find?_eq_none] at hfind
    refine ⟨_, .free (not_lt.1 hneg) fun s hs hn => hfind s hs (beq_iff_eq.2 hn), ?_⟩
    rw [List.map_append, hplaced]
    rfl
  | case3 => cases h
  | case4 tick moving placed hneg key other hfind hapart keep shift hpair ih =>
    obtain ⟨_, -, h⟩ := Attempt.bind_eq_ok.1 h
    split at h
    · rename_i hback
      subst hplaced
      obtain ⟨hother, htick⟩ := mem_of_find?_entry hfind
      obtain ⟨out, hout, hres⟩ := ih hback (put_entry ..).symm h
      refine ⟨out, .meet (not_lt.1 hneg) hother htick (Bool.eq_false_iff.2 hapart) hback ?_, hres⟩
      rwa [hpair]
    · cases h

/-- The tick of the search is taken by one slot, if at all. -/
theorem Settles.settle_eq {tick : Int} {moving : Slot} {slots out : List Slot} (h : Settles tick moving slots out)
    (hnodup : (slots.map Slot.tick).Nodup) : (settle tick moving (slots.map entry)).outcome = .ok (out.map entry) := by
  induction h with
  | @free tick moving placed hnonneg hfree =>
    have hfind : placed.find? (fun s => s.tick == tick) = none :=
      List.find?_eq_none.2 fun s hs hn => hfree s hs (beq_iff_eq.1 hn)
    rw [settle, if_neg (not_lt.2 hnonneg), find?_entry, hfind, List.map_append]
    rfl
  | @meet tick moving other placed res hnonneg hother htick hapart hback _ ih =>
    have hfind : placed.find? (fun s => s.tick == tick) = some other := by
      obtain ⟨x, hx⟩ : ∃ x, placed.find? (fun s => s.tick == tick) = some x :=
        Option.isSome_iff_exists.1 (List.find?_isSome.2 ⟨other, hother, beq_iff_eq.2 htick⟩)
      have hxt : x.tick = tick := by simpa using List.find?_some hx
      rw [hx, List.inj_on_of_nodup_map hnodup (List.mem_of_find?_eq_some hx) hother (hxt.trans htick.symm)]
    rw [settle, if_neg (not_lt.2 hnonneg), find?_entry, hfind]
    simp only [Option.map_some, entry]
    rw [if_neg (by rw [hapart]; exact Bool.false_ne_true), Attempt.outcome_bind_of_ok (Attempt.outcome_warn ..),
      if_pos hback]
    have hmove := ih (by rw [map_tick_replace]; exact hnodup)
    rwa [← put_entry] at hmove

section Settles

variable {start : Int} {first : Slot} {slots out : List Slot} (h : Settles start first slots out)

include h

theorem perm_of_settles (hnodup : (slots.map tick).Nodup) :
    (out.map tick).Nodup ∧ (out.map subject).Perm (first.subject :: slots.map subject) := by
  induction h with
  | free _ hfree =>
    refine ⟨nodup_free hnodup hfree, ?_⟩
    rw [List.map_append]
    exact List.perm_append_singleton _ _
  | meet _ hother htick _ _ _ ih =>
    obtain ⟨hout, hperm⟩ := ih (by rw [map_tick_replace]; exact hnodup)
    exact ⟨hout, hperm.trans (perm_exchange hnodup hother htick)⟩

theorem times_of_settles (hnodup : (slots.map tick).Nodup) : (out.map time).Perm ((first :: slots).map time) := by
  rw [map_time, map_time, List.map_cons]
  exact (perm_of_settles h hnodup).2.map fun e => e.2.2

theorem nonneg_of_settles (hslots : ∀ s ∈ slots, 0 ≤ s.tick) : ∀ s ∈ out, 0 ≤ s.tick := by
  induction h with
  | free hnonneg _ => exact List.forall_mem_append.2 ⟨hslots, List.forall_mem_singleton.2 hnonneg⟩
  | meet hnonneg _ _ _ _ _ ih =>
    refine ih fun s hs => ?_
    rcases mem_replace.1 hs with ⟨hs, -⟩ | ⟨rfl, -⟩
    · exact hslots s hs
    · exact hnonneg

/-- Slots only move back. -/
theorem lt_of_settles {bound : Int} (hslots : ∀ s ∈ slots, s.tick < bound) (hstart : start < bound) :
    ∀ s ∈ out, s.tick < bound := by
  induction h with
  | free _ _ => exact List.forall_mem_append.2 ⟨hslots, List.forall_mem_singleton.2 hstart⟩
  | meet _ _ _ _ hback _ ih =>
    refine ih (fun s hs => ?_) (hback.trans hstart)
    rcases mem_replace.1 hs with ⟨hs, -⟩ | ⟨rfl, -⟩
    · exact hslots s hs
    · exact hstart

end Settles

/-! ## All slots -/

/-- Slots that settle one after the other, among those that have settled before. -/
inductive Assigns : List Slot → List Slot → List Slot → Prop
  | nil {placed : List Slot} : Assigns placed [] placed
  | cons {placed mid todo res : List Slot} {s : Slot} (hone : Settles s.tick s placed mid)
      (hrest : Assigns mid todo res) : Assigns placed (s :: todo) res

theorem foldlM_settle_eq_ok {todo : List Slot} : ∀ {placed : List Slot} {res : List (Int × Slot)},
    (placed.map tick).Nodup →
    ((todo.foldlM (fun placed s => settle s.tick s placed) (placed.map entry)).outcome = .ok res ↔
      ∃ out, Assigns placed todo out ∧ out.map entry = res) := by
  induction todo with
  | nil =>
    intro placed res _
    constructor
    · intro h
      cases h
      exact ⟨placed, .nil, rfl⟩
    · rintro ⟨_, ⟨⟩, rfl⟩
      rfl
  | cons s todo ih =>
    intro placed res hnodup
    rw [Attempt.foldlM_cons_eq_ok]
    constructor
    · rintro ⟨_, hsettle, hrest⟩
      obtain ⟨mid, hone, rfl⟩ := settles_of_settle hsettle
      obtain ⟨out, hout, rfl⟩ := (ih (perm_of_settles hone hnodup).1).1 hrest
      exact ⟨out, .cons hone hout, rfl⟩
    · rintro ⟨out, ⟨⟩ | ⟨hone, hrest⟩, rfl⟩
      exact ⟨_, hone.settle_eq hnodup, (ih (perm_of_settles hone hnodup).1).2 ⟨out, hrest, rfl⟩⟩

/-- Every slot stands under the tick that it has been given. -/
theorem assign_eq_ok {raw : List Slot} {res : List (Int × Slot)} :
    (assign raw).outcome = .ok res ↔ ∃ out, Assigns [] raw out ∧ out.map entry = res :=
  @foldlM_settle_eq_ok raw [] res List.nodup_nil

theorem eq_of_assigns {raw res res' : List Slot} (h : Assigns [] raw res) (h' : Assigns [] raw res') : res = res' := by
  have hok := assign_eq_ok.2 ⟨res, h, rfl⟩
  rw [assign_eq_ok.2 ⟨res', h', rfl⟩] at hok
  rw [← map_snd_entry res, ← Except.ok.inj hok, map_snd_entry]

section Assigns

variable {placed todo res : List Slot} (h : Assigns placed todo res)

include h

theorem perm_of_assigns (hnodup : (placed.map tick).Nodup) :
    (res.map tick).Nodup ∧ (res.map subject).Perm (placed.map subject ++ todo.map subject) := by
  induction h with
  | nil => exact ⟨hnodup, by simp⟩
  | cons hone _ ih =>
    obtain ⟨hnodup₁, hperm₁⟩ := perm_of_settles hone hnodup
    obtain ⟨hnodup₂, hperm₂⟩ := ih hnodup₁
    refine ⟨hnodup₂, hperm₂.trans ((hperm₁.append_right _).trans ?_)⟩
    rw [List.map_cons]
    exact List.perm_middle.symm

theorem nonneg_of_assigns (hplaced : ∀ s ∈ placed, 0 ≤ s.tick) : ∀ s ∈ res, 0 ≤ s.tick := by
  induction h with
  | nil => exact hplaced
  | cons hone _ ih => exact ih (nonneg_of_settles hone hplaced)

theorem lt_of_assigns {bound : Int} (hplaced : ∀ s ∈ placed, s.tick < bound) (htodo : ∀ s ∈ todo, s.tick < bound) :
    ∀ s ∈ res, s.tick < bound := by
  induction h with
  | nil => exact hplaced
  | cons hone _ ih =>
    obtain ⟨hs, htodo⟩ := List.forall_mem_cons.1 htodo
    exact ih (lt_of_settles hone hplaced hs) htodo

end Assigns

/-! ## Failures -/

/-- Why slots do not find their ticks: there is no room, two of them have one time, or a tick is too large. -/
inductive Refusal (large : Prop) (slots : List Slot) : Failure → Prop
  | room {f : Fault} (hkind : f.kind = .notEnoughRoom) : Refusal large slots (.fault f)
  | shared {f : Fault} (hkind : f.kind = .internal)
      (hshared : ¬ (slots.map time).Pairwise fun x y => x.equal y = false) : Refusal large slots (.fault f)
  | endless (hlarge : large) : Refusal large slots .endlessSearch

/-- Among more slots there is as much reason to fail. -/
theorem Refusal.mono {large large' : Prop} {slots slots' : List Slot} {e : Failure} (h : Refusal large slots e)
    (hlarge : large → large') (hsub : (slots.map time).Subperm (slots'.map time)) : Refusal large' slots' e := by
  cases h with
  | room hkind => exact .room hkind
  | shared hkind hshared =>
    refine .shared hkind fun hapart => hshared ?_
    obtain ⟨times, hperm, hsublist⟩ := hsub
    refine (hapart.sublist hsublist).perm hperm fun {x y} hxy => ?_
    rwa [Binary64.equal_comm]
  | endless h => exact .endless (hlarge h)

theorem refusal_of_settle {tick : Int} {moving : Slot} {slots : List Slot} {e : Failure}
    (hnodup : (slots.map Slot.tick).Nodup) (h : (settle tick moving (slots.map entry)).outcome = .error e) :
    Refusal (Binary64.significandLimit < tick) (moving :: slots) e := by
  generalize hplaced : slots.map entry = placed at h
  fun_induction settle tick moving placed generalizing slots with
  | case1 =>
    cases h
    exact .room rfl
  | case2 => cases h
  | case3 tick moving placed hneg key other hfind hequal =>
    cases h
    subst hplaced
    refine .shared rfl fun hapart => ?_
    have hother := List.mem_map_of_mem (f := time) (mem_of_find?_entry hfind).1
    rw [Binary64.equal_comm, (List.pairwise_cons.1 hapart).1 _ hother] at hequal
    cases hequal
  | case4 tick moving placed hneg key other hfind hapart keep shift hpair ih =>
    rw [Attempt.outcome_bind_of_ok (Attempt.outcome_warn ..)] at h
    split at h
    · rename_i hback
      subst hplaced
      obtain ⟨hother, htick⟩ := mem_of_find?_entry hfind
      have htimes : ((shift :: replace slots tick keep).map time).Perm ((moving :: slots).map time) := by
        have hexchange := @times_exchange slots moving other tick hnodup hother htick
        rwa [hpair] at hexchange
      refine (ih hback ?_ (put_entry ..).symm h).mono hback.trans' htimes.subperm
      rw [map_tick_replace]
      exact hnodup
    · rename_i hback
      cases h
      refine .endless (not_le.1 fun hle => hback ?_)
      rw [Tick.back_eq (not_lt.1 hneg) hle]
      exact sub_one_lt tick

theorem refusal_of_assign {raw : List Slot} {e : Failure} (h : (assign raw).outcome = .error e) :
    Refusal (∃ s ∈ raw, Binary64.significandLimit < s.tick) raw e := by
  suffices hfold : ∀ {todo placed : List Slot}, (placed.map tick).Nodup →
      (todo.foldlM (fun placed s => settle s.tick s placed) (placed.map entry)).outcome = .error e →
      Refusal (∃ s ∈ todo, Binary64.significandLimit < s.tick) (placed ++ todo) e from
    @hfold raw [] List.nodup_nil h
  intro todo
  induction todo with
  | nil => exact fun _ h => by cases h
  | cons s todo ih =>
    intro placed hnodup h
    rw [List.foldlM_cons] at h
    cases hone : (settle s.tick s (placed.map entry)).outcome with
    | error e' =>
      rw [Attempt.outcome_bind, hone] at h
      cases h
      refine (refusal_of_settle hnodup hone).mono (fun hlarge => ⟨s, List.mem_cons_self, hlarge⟩) ?_
      rw [List.map_cons, List.map_append, List.map_cons]
      exact ((List.sublist_append_left ..).cons_cons _).subperm.trans List.perm_middle.symm.subperm
    | ok mid =>
      rw [Attempt.outcome_bind_of_ok hone] at h
      obtain ⟨mid, hmid, rfl⟩ := settles_of_settle hone
      refine (ih (perm_of_settles hmid hnodup).1 h).mono ?_ ?_
      · rintro ⟨s', hs', hlarge⟩
        exact ⟨s', List.mem_cons_of_mem _ hs', hlarge⟩
      · rw [List.map_append, List.map_append]
        exact ((times_of_settles hmid hnodup).append_right _).subperm.trans List.perm_middle.symm.subperm

end Slot

namespace Build

variable {f : Frame} {slots : List Slot}

/-- The slot is that of the jump: with its time, and with the counter of its channel. -/
structure Serves (f : Frame) (e : Jump × Channel) (s : Slot) : Prop where
  jump : s.jump = e.1
  time : f.timeline.jumpTime e.1.name = .ok s.time
  channel : ∃ p, Sequence.pulseCounter f.sequence.hardware e.2.name = .ok p ∧ s.channel = p.channel

theorem serves_of_slotOf {e : Jump × Channel} {s : Slot} (h : slotOf f e.1 e.2 = .ok s) : Serves f e s := by
  obtain ⟨time, htime, h⟩ := Except.bind_eq_ok.1 h
  simp only at h
  split at h
  · cases h
  · obtain ⟨p, hp, h⟩ := Except.bind_eq_ok.1 h
    cases h
    exact ⟨rfl, htime, p, hp, rfl⟩

theorem tick_of_slotOf {e : Jump × Channel} {s : Slot} (h : slotOf f e.1 e.2 = .ok s) : s.tick < f.terminator := by
  obtain ⟨time, -, h⟩ := Except.bind_eq_ok.1 h
  simp only at h
  split at h
  · cases h
  · rename_i hlt
    obtain ⟨p, -, h⟩ := Except.bind_eq_ok.1 h
    cases h
    exact not_le.1 hlt

/-- The jumps, slot by slot, and what becomes of their ticks. -/
theorem slotsOf_eq_ok : (slotsOf f).outcome = .ok slots ↔
    ∃ raw, List.Forall₂ (fun e s => slotOf f e.1 e.2 = .ok s) f.sequence.jumps raw ∧ Slot.Assigns [] raw slots := by
  constructor
  · intro h
    obtain ⟨raw, hraw, h⟩ := Attempt.bind_eq_ok.1 h
    obtain ⟨placed, hplaced, h⟩ := Attempt.bind_eq_ok.1 h
    obtain ⟨out, hout, rfl⟩ := Slot.assign_eq_ok.1 hplaced
    cases h
    rw [Slot.map_snd_entry]
    exact ⟨raw, Except.mapM_eq_ok.1 (Attempt.ofExcept_eq_ok.1 hraw), hout⟩
  · rintro ⟨raw, hraw, h⟩
    refine Attempt.bind_eq_ok.2 ⟨raw, Attempt.ofExcept_eq_ok.2 (Except.mapM_eq_ok.2 hraw), Attempt.bind_eq_ok.2 ⟨_,
      Slot.assign_eq_ok.2 ⟨slots, h, rfl⟩, ?_⟩⟩
    rw [Slot.map_snd_entry]
    rfl

theorem tick_lt_of_slotsOf (h : (slotsOf f).outcome = .ok slots) :
    ∀ s ∈ slots, s.tick < f.terminator := by
  obtain ⟨raw, hraw, h⟩ := slotsOf_eq_ok.1 h
  refine Slot.lt_of_assigns h (by simp) fun s hs => ?_
  obtain ⟨e, -, he⟩ := forall₂_exists_left hraw hs
  exact tick_of_slotOf he

theorem nonneg_of_slotsOf (h : (slotsOf f).outcome = .ok slots) : ∀ s ∈ slots, 0 ≤ s.tick := by
  obtain ⟨raw, -, h⟩ := slotsOf_eq_ok.1 h
  exact Slot.nonneg_of_assigns h (by simp)

theorem Serves.of_subject {e : Jump × Channel} {s s' : Slot} (h : Serves f e s) (heq : s'.subject = s.subject) :
    Serves f e s' := by
  obtain ⟨h1, h2⟩ := Prod.mk.inj heq
  obtain ⟨h2, h3⟩ := Prod.mk.inj h2
  exact ⟨h1.trans h.jump, by rw [h3]; exact h.time, by rw [h2]; exact h.channel⟩

/-- The slots before ticks are assigned. -/
theorem exists_of_slotsOf (h : (slotsOf f).outcome = .ok slots) :
    ∃ raw, List.Forall₂ (fun e s => slotOf f e.1 e.2 = .ok s) f.sequence.jumps raw ∧
      (slots.map Slot.subject).Perm (raw.map Slot.subject) := by
  obtain ⟨raw, hraw, h⟩ := slotsOf_eq_ok.1 h
  exact ⟨raw, hraw, (Slot.perm_of_assigns h List.nodup_nil).2⟩

theorem ticks_of_slotsOf (h : (slotsOf f).outcome = .ok slots) : (slots.map Slot.tick).Nodup := by
  obtain ⟨raw, -, h⟩ := slotsOf_eq_ok.1 h
  exact (Slot.perm_of_assigns h List.nodup_nil).1

theorem map_name_slotOf {es : List (Jump × Channel)} {raw : List Slot}
    (h : List.Forall₂ (fun e s => slotOf f e.1 e.2 = .ok s) es raw) :
    raw.map (fun s => s.jump.name) = es.map fun e => e.1.name := by
  induction h with
  | nil => rfl
  | cons hs _ ih => rw [List.map_cons, List.map_cons, ih, (serves_of_slotOf hs).jump]

theorem names_of_slotsOf (h : (slotsOf f).outcome = .ok slots) :
    (slots.map fun s => s.jump.name).Perm (f.sequence.jumps.map fun e => e.1.name) := by
  obtain ⟨raw, hraw, hperm⟩ := exists_of_slotsOf h
  have hnames := hperm.map fun e : Jump × Binary64 × Binary64 => e.1.name
  rw [List.map_map, List.map_map] at hnames
  exact hnames.trans (List.Perm.of_eq (map_name_slotOf hraw))

theorem exists_slot (h : (slotsOf f).outcome = .ok slots) {e : Jump × Channel} (he : e ∈ f.sequence.jumps) :
    ∃ s ∈ slots, Serves f e s := by
  obtain ⟨raw, hraw, hperm⟩ := exists_of_slotsOf h
  obtain ⟨s, hs, hslot⟩ := forall₂_exists_right hraw he
  obtain ⟨s', hs', heq⟩ := List.mem_map.1 (hperm.mem_iff.2 (List.mem_map.2 ⟨s, hs, rfl⟩))
  exact ⟨s', hs', (serves_of_slotOf hslot).of_subject heq⟩

theorem exists_jump (h : (slotsOf f).outcome = .ok slots) {s : Slot} (hs : s ∈ slots) :
    ∃ e ∈ f.sequence.jumps, Serves f e s := by
  obtain ⟨raw, hraw, hperm⟩ := exists_of_slotsOf h
  obtain ⟨s', hs', heq⟩ := List.mem_map.1 (hperm.mem_iff.1 (List.mem_map.2 ⟨s, hs, rfl⟩))
  obtain ⟨e, he, hslot⟩ := forall₂_exists_left hraw hs'
  exact ⟨e, he, (serves_of_slotOf hslot).of_subject heq.symm⟩

/-! ## Destinations -/

/-- The tick of a destination, wherever the sequence ends. -/
def rawTick (f : Frame) (slots : List Slot) (jump : String) : Reference → Except Fault Int
  | .jump name =>
    match slots.find? fun s => s.jump.name == name with
    | some s => .ok s.tick
    | none => (f.timeline.jumpTime name).map f.tickOf
  | r => (f.timeline.timeOf r jump).map f.tickOf

theorem destinationTick_eq_ok {f : Frame} {slots : List Slot} {jump : String} {r : Reference} {tick : Int} :
    (destinationTick f slots jump r).outcome = .ok tick ↔
      ∃ raw, rawTick f slots jump r = .ok raw ∧ tick = if f.terminator ≤ raw then f.terminator - 1 else raw := by
  have hclamp : ∀ raw : Int, (if f.terminator ≤ raw then do
        Attempt.warn s!"Destination of jump '{jump}' moved from tick {wholeText raw} to {wholeText (f.terminator - 1)}"
          (some jump)
        return f.terminator - 1
      else return raw : Attempt Int).outcome = .ok (if f.terminator ≤ raw then f.terminator - 1 else raw) := by
    intro raw
    split <;> rfl
  have htime : ∀ (time : Except Fault Binary64) (clamp : Int → Attempt Int),
      (∀ raw, (clamp raw).outcome = .ok (if f.terminator ≤ raw then f.terminator - 1 else raw)) →
      ((do
        let time ← Attempt.ofExcept time
        let tick ← pure (f.tickOf time)
        clamp tick : Attempt Int).outcome = .ok tick ↔
      ∃ raw, time.map f.tickOf = .ok raw ∧ tick = if f.terminator ≤ raw then f.terminator - 1 else raw) := by
    intro time clamp hclamp
    cases time with
    | error e => exact iff_of_false nofun fun ⟨_, h, _⟩ => by cases h
    | ok time =>
      rw [Attempt.outcome_bind_of_ok (Attempt.outcome_ofExcept_ok rfl), Attempt.outcome_bind_of_ok rfl, hclamp]
      simp [Except.map, eq_comm]
  unfold destinationTick rawTick
  cases r with
  | jump name =>
    cases hfind : slots.find? fun s => s.jump.name == name with
    | some s =>
      simp only [hfind]
      exact (Eq.congr_left (hclamp s.tick)).trans (by simp [eq_comm])
    | none =>
      simp only [hfind]
      exact htime _ _ hclamp
  | start | finish | control => exact htime _ _ hclamp

end Build

end PulseSequencer
