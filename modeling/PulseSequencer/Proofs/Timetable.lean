import PulseSequencer.Proofs.Selection

/-!
# The timetable of jumps

Where the ticks of jumps do not run against their times, every order of the jumps leads to one timetable, read off from
the last jump to the first.

* `Slot.retreat`, `Slot.timetable` : the ticks of slots in the order of their times;
* `Slot.stable_retreat`, `Slot.tick_le_retreat` : it is a stable order, and there is no later one;
* `Slot.apart_of_ok` : slots that find their ticks have times of their own;
* `Slot.assign_timetable` : what becomes of slots in any order.
-/

namespace PulseSequencer

namespace Slot

/-- Ticks for slots in the order of their times: the last one keeps its own, and every other one takes its own or the
one before that of its successor, whichever is earlier. -/
def retreat : List Slot → List Slot
  | [] => []
  | s :: rest =>
    let later := retreat rest
    { s with tick := later.head?.elim s.tick fun next => min s.tick (next.tick - 1) } :: later

theorem map_subject_retreat (slots : List Slot) : (retreat slots).map subject = slots.map subject := by
  induction slots with
  | nil => rfl
  | cons s rest ih =>
    rw [retreat, List.map_cons, List.map_cons, ih]
    rfl

theorem map_time_retreat (slots : List Slot) : (retreat slots).map time = slots.map time := by
  rw [map_time, map_time, map_subject_retreat]

/-- Every slot is in front of its successor. -/
theorem increasing_retreat (slots : List Slot) : (retreat slots).Pairwise fun a b => a.tick < b.tick := by
  induction slots with
  | nil => exact .nil
  | cons s rest ih =>
    rw [retreat]
    cases htail : retreat rest with
    | nil => exact List.pairwise_singleton _ _
    | cons next later =>
      rw [htail] at ih
      have hnext : min s.tick (next.tick - 1) < next.tick := by omega
      refine List.pairwise_cons.2 ⟨List.forall_mem_cons.2 ⟨hnext, fun x hx => ?_⟩, ih⟩
      exact hnext.trans ((List.pairwise_cons.1 ih).1 x hx)

section Sorted

variable {ρ : Binary64 → Int} {slots : List Slot} (hsorted : slots.Pairwise fun a b => a.time < b.time)
  (htick : ∀ s ∈ slots, s.tick = ρ s.time) (hmono : ∀ a ∈ slots, ∀ b ∈ slots, a.time < b.time → a.tick ≤ b.tick)

include htick in
theorem le_of_retreat : ∀ s ∈ retreat slots, s.tick ≤ ρ s.time := by
  induction slots with
  | nil => exact fun s hs => absurd hs List.not_mem_nil
  | cons s rest ih =>
    obtain ⟨hs, hrest⟩ := List.forall_mem_cons.1 htick
    refine List.forall_mem_cons.2 ⟨?_, ih hrest⟩
    show (retreat rest).head?.elim s.tick _ ≤ ρ s.time
    cases (retreat rest).head? with
    | none => exact hs.le
    | some next =>
      show min s.tick (next.tick - 1) ≤ ρ s.time
      omega

include hsorted htick hmono

/-- A slot that does not have its own tick has a full run of later slots behind it, up to that tick and further. -/
theorem taken_of_retreat : ∀ s ∈ retreat slots, ∀ c, s.tick < c → c ≤ ρ s.time →
    ∃ s' ∈ retreat slots, s'.tick = c ∧ s.time < s'.time := by
  induction slots with
  | nil => exact fun s hs => absurd hs List.not_mem_nil
  | cons s rest ih =>
    obtain ⟨hlater, hsorted⟩ := List.pairwise_cons.1 hsorted
    obtain ⟨hs, htick⟩ := List.forall_mem_cons.1 htick
    have ih := ih hsorted htick fun a ha b hb => hmono a (List.mem_cons_of_mem _ ha) b (List.mem_cons_of_mem _ hb)
    refine List.forall_mem_cons.2 ⟨fun c hlo hhi => ?_, fun x hx c hlo hhi => ?_⟩
    · change (retreat rest).head?.elim s.tick _ < c at hlo
      change c ≤ ρ s.time at hhi
      show ∃ s' ∈ _ :: retreat rest, s'.tick = c ∧ s.time < s'.time
      cases hhead : (retreat rest).head? with
      | none =>
        rw [hhead] at hlo
        change s.tick < c at hlo
        omega
      | some next =>
        rw [hhead] at hlo
        change min s.tick (next.tick - 1) < c at hlo
        have hnext : next ∈ retreat rest := List.mem_of_mem_head? hhead
        obtain ⟨x, hx, htime⟩ : ∃ x ∈ rest, x.time = next.time := by
          rw [← List.mem_map, ← map_time_retreat]
          exact List.mem_map_of_mem hnext
        have hlt : s.time < next.time := htime ▸ hlater x hx
        by_cases hc : c = next.tick
        · exact ⟨next, List.mem_cons_of_mem _ hnext, hc.symm, hlt⟩
        · -- the successor has been sent past the tick as well
          have hle : s.tick ≤ x.tick := hmono s List.mem_cons_self x (List.mem_cons_of_mem _ hx) (hlater x hx)
          rw [htick x hx, htime] at hle
          obtain ⟨s', hs', hs'c, hs't⟩ := ih next hnext c (by omega) (by omega)
          exact ⟨s', List.mem_cons_of_mem _ hs', hs'c, Binary64.lt_trans hlt hs't⟩
    · obtain ⟨s', hs', hs'c⟩ := ih x hx c hlo hhi
      exact ⟨s', List.mem_cons_of_mem _ hs', hs'c⟩

theorem stable_retreat (hnonneg : ∀ s ∈ retreat slots, 0 ≤ s.tick) : Stable ρ (retreat slots) := by
  refine ⟨?_, hnonneg, le_of_retreat htick, taken_of_retreat hsorted htick hmono⟩
  exact List.pairwise_map.2 ((increasing_retreat slots).imp fun h => h.ne)

/-- In a stable order no slot has a later tick. -/
theorem tick_le_retreat {res : List Slot} (hres : Stable ρ res) (hmem : ∀ s ∈ slots, ∃ r ∈ res, r.time = s.time) :
    ∀ s ∈ retreat slots, ∃ r ∈ res, r.time = s.time ∧ r.tick ≤ s.tick := by
  induction slots with
  | nil => exact fun s hs => absurd hs List.not_mem_nil
  | cons s rest ih =>
    obtain ⟨hlater, hsorted⟩ := List.pairwise_cons.1 hsorted
    obtain ⟨hs, htick⟩ := List.forall_mem_cons.1 htick
    obtain ⟨⟨r, hr, hrs⟩, hmem⟩ := List.forall_mem_cons.1 hmem
    have ih :=
      ih hsorted htick (fun a ha b hb => hmono a (List.mem_cons_of_mem _ ha) b (List.mem_cons_of_mem _ hb)) hmem
    refine List.forall_mem_cons.2 ⟨⟨r, hr, hrs, ?_⟩, ih⟩
    have hown : r.tick ≤ s.tick := by
      rw [hs, ← hrs]
      exact hres.le r hr
    show r.tick ≤ (retreat rest).head?.elim s.tick _
    cases hhead : (retreat rest).head? with
    | none => exact hown
    | some next =>
      obtain ⟨q, hq, hqnext, hle⟩ := ih next (List.mem_of_mem_head? hhead)
      obtain ⟨x, hx, htime⟩ : ∃ x ∈ rest, x.time = next.time := by
        rw [← List.mem_map, ← map_time_retreat]
        exact List.mem_map_of_mem (List.mem_of_mem_head? hhead)
      have hlt : r.time < q.time := by
        rw [hrs, hqnext, ← htime]
        exact hlater x hx
      -- behind the tick of a later slot, up to the tick of its time, there are only slots that are later still
      have hlt' : r.tick < q.tick := by
        by_contra hge
        have hbound : s.tick ≤ x.tick := hmono s List.mem_cons_self x (List.mem_cons_of_mem _ hx) (hlater x hx)
        rw [htick x hx, htime, ← hqnext] at hbound
        exact hres.tick_ne hq hr hlt (not_lt.1 hge) (hown.trans hbound) rfl
      show r.tick ≤ min s.tick (next.tick - 1)
      omega

end Sorted

/-! ## Slots of one time -/

/-- A slot on its way to one of the same time does not get past it: only later ones stand between them. -/
theorem not_settles {start : Int} {first : Slot} {slots out : List Slot} (h : Settles start first slots out)
    (hnodup : (slots.map tick).Nodup) {a : Slot} (ha : a ∈ slots) (hequal : a.time.equal first.time = true)
    (hback : a.tick ≤ start)
    (htaken : ∀ c, a.tick < c → c ≤ start → ∃ s ∈ slots, s.tick = c ∧ first.time < s.time)
    (hlimit : start ≤ Binary64.significandLimit) : False := by
  induction h with
  | @free tick moving placed hnonneg hfree =>
    by_cases hn : a.tick = tick
    · exact hfree a ha hn
    · obtain ⟨s, hs, hsn, -⟩ := htaken tick (by omega) le_rfl
      exact hfree s hs hsn
  | @meet tick moving other placed res hnonneg hother htick hapart _ _ ih =>
    have hne : a.tick ≠ tick := fun hn => by
      rw [← List.inj_on_of_nodup_map hnodup ha hother (hn.trans htick.symm), hequal] at hapart
      cases hapart
    obtain ⟨s, hs, hsn, hlater⟩ := htaken tick (by omega) le_rfl
    obtain rfl : s = other := List.inj_on_of_nodup_map hnodup hs hother (hsn.trans htick.symm)
    -- the one in the way is later, so it stays where it is
    have hrank : ranked moving s = (s, moving) := if_pos hlater
    rw [hrank, replace_self hnodup hother htick, Tick.back_eq hnonneg hlimit] at ih
    exact ih hnodup ha hequal (by omega) (fun c hlo hhi => htaken c hlo (by omega)) (by omega)

section Listing

variable {ρ : Binary64 → Int} {raw : List Slot} (hnumber : ∀ s ∈ raw, s.time.isNaN = false)
  (htick : ∀ s ∈ raw, s.tick = ρ s.time) (hlimit : ∀ s ∈ raw, s.tick ≤ Binary64.significandLimit)
  (hmono : ∀ a ∈ raw, ∀ b ∈ raw, a.time ≤ b.time → a.tick ≤ b.tick)

include hnumber htick hlimit hmono

/-- A slot that finds its tick has a time of its own. -/
theorem apart_of_settles {placed mid : List Slot} {s : Slot} (hs : s ∈ raw) (hplaced : Stable ρ placed)
    (hsource : ∀ a ∈ placed, ∃ x ∈ raw, x.time = a.time) (hway : Settles s.tick s placed mid) :
    ∀ a ∈ placed, s.time < a.time ∨ a.time < s.time := by
  intro a ha
  obtain ⟨x, hx, hxa⟩ := hsource a ha
  have hreal : a.time.isNaN = false := hxa ▸ hnumber x hx
  refine ((Binary64.equal_eq_false_iff hreal (hnumber s hs)).1 (Bool.eq_false_iff.2 fun hequal => ?_)).symm
  -- the two have one tick to start from, and all ticks from there to where the first one is are taken
  obtain ⟨hle, hge⟩ := Bool.and_eq_true_iff.1 hequal
  have hsame : ρ a.time = s.tick := by
    have hto := hmono x hx s hs (hxa ▸ hle)
    have hfrom := hmono s hs x hx (hxa ▸ hge)
    rw [← hxa, ← htick x hx]
    omega
  refine not_settles hway hplaced.nodup ha hequal (hsame ▸ hplaced.le a ha) (fun c hlo hhi => ?_) (hlimit s hs)
  obtain ⟨s', hs', hc, hlater⟩ := hplaced.taken a ha c hlo (by omega)
  exact ⟨s', hs', hc, Binary64.lt_of_le_of_lt hge hlater⟩

/-- Slots that find their ticks have times of their own. -/
theorem apart_of_ok {placed todo res : List Slot} (h : Assigns placed todo res) (hplaced : Stable ρ placed)
    (hapart : (placed.map time).Pairwise fun x y => x < y ∨ y < x)
    (hsource : ∀ s ∈ placed, ∃ x ∈ raw, x.time = s.time) (htodo : ∀ s ∈ todo, s ∈ raw) :
    ((placed ++ todo).map time).Pairwise fun x y => x < y ∨ y < x := by
  induction h with
  | nil =>
    rw [List.append_nil]
    exact hapart
  | @cons placed mid todo res s hone _ ih =>
    obtain ⟨hs, htodo⟩ := List.forall_mem_cons.1 htodo
    have hnew : ((s :: placed).map time).Pairwise fun x y => x < y ∨ y < x :=
      List.pairwise_cons.2 ⟨List.forall_mem_map.2
        (apart_of_settles hnumber htick hlimit hmono hs hplaced hsource hone), hapart⟩
    have htimes := times_of_settles hone hplaced.nodup
    have hmid := stable_of_settles hone hplaced hnew (htick s hs).le (htick s hs ▸ blocked_start placed s.time)
      (hlimit s hs)
    have hrest := ih hmid (hnew.perm htimes.symm Or.symm) (fun x hx => ?_) htodo
    · refine hrest.perm ?_ Or.symm
      rw [List.map_append, List.map_append]
      exact (htimes.append_right _).trans List.perm_middle.symm
    · have hx := htimes.mem_iff.1 (List.mem_map_of_mem hx)
      rcases List.mem_cons.1 hx with hx | hx
      · exact ⟨s, hs, hx.symm⟩
      · obtain ⟨y, hy, hyx⟩ := List.mem_map.1 hx
        obtain ⟨z, hz, hzy⟩ := hsource y hy
        exact ⟨z, hz, hzy.trans hyx⟩

end Listing

/-! ## Any order -/

/-- The slots in the order of their times, with the ticks that follow from the last one's. -/
def timetable (slots : List Slot) : List Slot := retreat (Sort.sortBy (fun a b => decide (a.time ≤ b.time)) slots)

theorem perm_timetable (slots : List Slot) : ((timetable slots).map subject).Perm (slots.map subject) := by
  rw [timetable, map_subject_retreat]
  exact (Sort.perm_sortBy _ slots).map subject

theorem sorted_of_apart {slots : List Slot} (hnumber : ∀ s ∈ slots, s.time.isNaN = false)
    (hapart : (slots.map time).Pairwise fun x y => x < y ∨ y < x) :
    (Sort.sortBy (fun a b => decide (a.time ≤ b.time)) slots).Pairwise fun a b => a.time < b.time := by
  have hsame : ∀ a ∈ slots, ∀ b ∈ slots, decide (a.time ≤ b.time) = !decide (b.time < a.time) := by
    intro a ha b hb
    rw [← decide_not, decide_eq_decide, ← Binary64.not_le (hnumber a ha) (hnumber b hb), not_not]
  rw [Sort.sortBy_congr hsame]
  have hslots : slots.Pairwise fun a b => a.time < b.time ∨ b.time < a.time := List.pairwise_map.1 hapart
  refine Sort.pairwise_sortBy_of_lt (fun hab hbc => ?_) (fun a b => ?_) hslots
  · exact Binary64.lt_trans hab hbc
  · rw [Bool.not_eq_true', decide_eq_false_iff_not]

/-- Slots of one time have one tick, so there is a tick to every time. -/
theorem exists_tick_of_time {slots : List Slot} (hnumber : ∀ s ∈ slots, s.time.isNaN = false)
    (hmono : ∀ a ∈ slots, ∀ b ∈ slots, a.time ≤ b.time → a.tick ≤ b.tick) :
    ∃ ρ : Binary64 → Int, ∀ s ∈ slots, s.tick = ρ s.time := by
  refine ⟨fun t => ((slots.find? fun s => s.time == t).map tick).getD 0, fun s hs => ?_⟩
  obtain ⟨x, hfind⟩ : ∃ x, slots.find? (fun x => x.time == s.time) = some x :=
    Option.isSome_iff_exists.1 (List.find?_isSome.2 ⟨s, hs, beq_self_eq_true _⟩)
  have hx := List.mem_of_find?_eq_some hfind
  have hxs : x.time = s.time := by simpa using List.find?_some hfind
  have hrefl : s.time ≤ s.time := (Binary64.le_iff_key (hnumber s hs) (hnumber s hs)).2 le_rfl
  have hto := hmono x hx s hs (hxs ▸ hrefl)
  have hfrom := hmono s hs x hx (hxs ▸ hrefl)
  simp only [hfind, Option.map_some, Option.getD_some]
  omega

section Any

variable {ρ : Binary64 → Int} {slots listing placed : List Slot} (hlisting : listing.Perm slots)
  (htick : ∀ s ∈ slots, s.tick = ρ s.time) (hmono : ∀ a ∈ slots, ∀ b ∈ slots, a.time ≤ b.time → a.tick ≤ b.tick)
  (hnumber : ∀ s ∈ slots, s.time.isNaN = false) (hapart : (slots.map time).Pairwise fun x y => x < y ∨ y < x)
  (hlimit : ∀ s ∈ slots, s.tick ≤ Binary64.significandLimit)

include htick hmono hnumber hapart

theorem stable_timetable (hnonneg : ∀ s ∈ timetable slots, 0 ≤ s.tick) : Stable ρ (timetable slots) := by
  refine stable_retreat (sorted_of_apart hnumber hapart) (fun s hs => htick s (Sort.mem_sortBy.1 hs)) ?_ hnonneg
  exact fun a ha b hb hlt => hmono a (Sort.mem_sortBy.1 ha) b (Sort.mem_sortBy.1 hb) (Binary64.le_of_lt hlt)

include hlisting hlimit

omit hmono hnumber in
theorem stable_of_listing (h : Assigns [] listing placed) : Stable ρ placed :=
  stable_of_assigns (fun s hs => htick s (hlisting.mem_iff.1 hs)) (fun s hs => hlimit s (hlisting.mem_iff.1 hs))
    stable_nil (hapart.perm (hlisting.map time).symm Or.symm) h

theorem tick_le_timetable (h : Assigns [] listing placed) :
    ∀ s ∈ timetable slots, ∃ r ∈ placed, r.time = s.time ∧ r.tick ≤ s.tick := by
  refine tick_le_retreat (sorted_of_apart hnumber hapart) (fun s hs => htick s (Sort.mem_sortBy.1 hs)) ?_
    (stable_of_listing hlisting htick hapart hlimit h)
    fun s hs => exists_assigned h (hlisting.mem_iff.2 (Sort.mem_sortBy.1 hs))
  exact fun a ha b hb hlt => hmono a (Sort.mem_sortBy.1 ha) b (Sort.mem_sortBy.1 hb) (Binary64.le_of_lt hlt)

/-- Where the timetable has a tick for every slot, it is what the slots end up with. -/
theorem exists_perm_timetable (hnonneg : ∀ s ∈ timetable slots, 0 ≤ s.tick) :
    ∃ placed, Assigns [] listing placed ∧ placed.Perm (timetable slots) := by
  have hstable := stable_timetable htick hmono hnumber hapart hnonneg
  have hmem : ∀ s ∈ listing, ∃ a ∈ timetable slots, a.time = s.time := fun s hs => by
    obtain ⟨a, ha, heq⟩ := List.mem_map.1
      ((perm_timetable slots).mem_iff.2 (List.mem_map_of_mem (hlisting.mem_iff.1 hs)))
    exact ⟨a, ha, congrArg (fun e => e.2.2) heq⟩
  obtain ⟨placed, hok, hbounds⟩ := exists_assigns (fun s hs => htick s (hlisting.mem_iff.1 hs))
    (fun s hs => hlimit s (hlisting.mem_iff.1 hs)) stable_nil (hapart.perm (hlisting.map time).symm Or.symm) hstable
    hmem (by simp)
  obtain ⟨hnodup, hsubjects⟩ := perm_of_assigns hok List.nodup_nil
  have hsame : (placed.map subject).Perm ((timetable slots).map subject) :=
    (hsubjects.trans (hlisting.map subject)).trans (perm_timetable slots).symm
  have hapart' : ((timetable slots).map time).Pairwise fun x y => x < y ∨ y < x := by
    rw [map_time] at hapart ⊢
    exact hapart.perm ((perm_timetable slots).map _).symm Or.symm
  refine ⟨placed, hok, (List.subperm_of_subset (List.Nodup.of_map tick hnodup) fun r hr => ?_).perm_of_length_le ?_⟩
  · -- both bounds on the tick are about the one slot of that time
    obtain ⟨a, ha, hsubject⟩ := List.mem_map.1 (hsame.mem_iff.1 (List.mem_map_of_mem hr))
    have htime : a.time = r.time := congrArg (fun e => e.2.2) hsubject
    obtain ⟨b, hb, hbr, hlo⟩ := hbounds r hr
    obtain rfl : b = a := eq_of_time hapart' hb ha (hbr.trans htime.symm)
    obtain ⟨q, hq, hqb, hhi⟩ := tick_le_timetable hlisting htick hmono hnumber hapart hlimit hok b hb
    have hplaced : (placed.map time).Pairwise fun x y => x < y ∨ y < x :=
      apart_of_assigns hok (hapart.perm (hlisting.map time).symm Or.symm)
    obtain rfl : q = r := eq_of_time hplaced hq hr (hqb.trans htime)
    have hticks : b.tick = q.tick := by omega
    have heq : q = b := by
      cases q
      cases b
      cases hsubject
      cases hticks
      rfl
    exact heq ▸ ha
  · rw [← List.length_map subject, ← List.length_map subject, hsame.length_eq]

end Any

/-- Slots with ticks that do not run against their times and are not larger than `2 ^ 53`. In whatever order they are
listed, those at different times end up with the ticks of the timetable if it has one for each, every slot alone under
the tick that it carries, and for want of room fail if not; slots two of which share a time never find their ticks. -/
theorem assign_timetable {slots listing : List Slot} (hlisting : listing.Perm slots)
    (hnumber : ∀ s ∈ slots, s.time.isNaN = false)
    (hmono : ∀ a ∈ slots, ∀ b ∈ slots, a.time ≤ b.time → a.tick ≤ b.tick)
    (hlimit : ∀ s ∈ slots, s.tick ≤ 2 ^ 53) :
    ((slots.map time).Pairwise (fun x y => x.equal y = false) →
      ((∀ s ∈ timetable slots, 0 ≤ s.tick) →
        ∃ placed, (assign listing).outcome = .ok placed ∧
          placed.Perm ((timetable slots).map fun s => (s.tick, s)) ∧ (placed.map Prod.fst).Nodup) ∧
      ((∃ s ∈ timetable slots, s.tick < 0) →
        ∃ f, (assign listing).outcome = .error (.fault f) ∧ f.kind = .notEnoughRoom)) ∧
    (¬ (slots.map time).Pairwise (fun x y => x.equal y = false) → ∀ placed, (assign listing).outcome ≠ .ok placed) := by
  obtain ⟨ρ, htick⟩ := exists_tick_of_time hnumber hmono
  have hlimit' : ∀ s ∈ listing, s.tick ≤ Binary64.significandLimit := fun s hs => hlimit s (hlisting.mem_iff.1 hs)
  have hiff : (slots.map time).Pairwise (fun x y => x.equal y = false) ↔
      (slots.map time).Pairwise fun x y => x < y ∨ y < x := by
    refine List.Pairwise.iff_of_mem fun {x y} hx hy => ?_
    obtain ⟨a, ha, rfl⟩ := List.mem_map.1 hx
    obtain ⟨b, hb, rfl⟩ := List.mem_map.1 hy
    exact Binary64.equal_eq_false_iff (hnumber a ha) (hnumber b hb)
  refine ⟨fun hdiffer => ⟨fun hroom => ?_, fun ⟨s, hs, hneg⟩ => ?_⟩, fun hshare placed hok => hshare (hiff.2 ?_)⟩
  · obtain ⟨placed, hok, hperm⟩ := exists_perm_timetable hlisting htick hmono hnumber (hiff.1 hdiffer) hlimit hroom
    refine ⟨placed.map entry, assign_eq_ok.2 ⟨placed, hok, rfl⟩, hperm.map entry, ?_⟩
    rw [List.map_map]
    exact (perm_of_assigns hok List.nodup_nil).1
  · cases hout : (assign listing).outcome with
    | ok placed =>
      obtain ⟨out, hok, -⟩ := assign_eq_ok.1 hout
      obtain ⟨r, hr, -, hle⟩ := tick_le_timetable hlisting htick hmono hnumber (hiff.1 hdiffer) hlimit hok s hs
      have hlow := nonneg_of_assigns hok (by simp) r hr
      omega
    | error e =>
      cases refusal_of_assign hout with
      | room hkind => exact ⟨_, rfl, hkind⟩
      | shared _ hshared =>
        refine absurd (hdiffer.perm (hlisting.map time).symm fun {x y} hxy => ?_) hshared
        rwa [Binary64.equal_comm]
      | endless hlarge =>
        obtain ⟨x, hx, hlarge⟩ := hlarge
        exact absurd (hlimit' x hx) (not_le.2 hlarge)
  · obtain ⟨out, hok, -⟩ := assign_eq_ok.1 hok
    refine (apart_of_ok (fun s hs => hnumber s (hlisting.mem_iff.1 hs)) (fun s hs => htick s (hlisting.mem_iff.1 hs))
      hlimit' (fun a ha b hb => hmono a (hlisting.mem_iff.1 ha) b (hlisting.mem_iff.1 hb)) hok stable_nil .nil (by simp)
      fun _ hs => hs).perm (hlisting.map time) Or.symm

/-- Three jumps within a tick. -/
def rush : List Slot :=
  [⟨⟨"b", .absolute 34, .terminate⟩, 2, 34, 2⟩, ⟨⟨"a", .absolute 31, .terminate⟩, 2, 31, 2⟩,
    ⟨⟨"c", .absolute 48, .terminate⟩, 2, 48, 2⟩]

theorem rush_timetable : (timetable rush).map (fun s => (s.jump.name, s.tick)) = [("a", 0), ("b", 1), ("c", 2)] ∧
    ∃ placed, (assign rush.reverse).outcome = .ok placed ∧
      placed.Perm ((timetable rush).map fun s => (s.tick, s)) ∧ (placed.map Prod.fst).Nodup := by
  refine ⟨by decide +kernel, ?_⟩
  exact ((assign_timetable (List.reverse_perm rush) (by decide +kernel) (by decide +kernel) (by decide)).1
    (by decide +kernel)).1 (by decide +kernel)

/-- From `2 ^ 53` on a step back may skip a tick, or lead to where it started. -/
example : (assign (rush.map fun s => { s with tick := 2 ^ 53 + 2 })).outcome.toOption.map (List.map Prod.fst) =
      some [2 ^ 53 + 2, 2 ^ 53, 2 ^ 53 - 1] ∧
    (assign (rush.map fun s => { s with tick := 2 ^ 54 })).outcome = .error .endlessSearch := by
  decide +kernel

end Slot

end PulseSequencer
