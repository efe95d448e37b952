import PulseSequencer.Proofs.Inherit
import PulseSequencer.Proofs.Merge

/-!
# SETs that outline a signal

A signal gives the state of the output lines at every tick. A draft outlines it if no SET contradicts it and the leading
SET of a tick has all lines that change there. Merging keeps this, and inheritance makes every SET carry the whole
state.

* `Drive.TrueTo`, `Drive.Full` : a drive that does not contradict a state, and one that carries all of it;
* `Draft.Faithful`, `Draft.Outlines`, `Draft.Merged.outlines` : outlines, which a merge keeps;
* `Draft.full_of_inheritOutputs` : after inheritance every SET carries the state of its tick.
-/

namespace PulseSequencer

namespace Drive

/-- On the given lines the drive has nothing but what the state has. -/
def TrueTo (lines state : Int) (e : Drive) : Prop :=
  ∀ i, Bits.bit lines i = true → Bits.bit e.mask i = true → Bits.bit e.value i = Bits.bit state i

/-- The drive carries the state on all given lines. -/
def Full (lines state : Int) (e : Drive) : Prop :=
  ∀ i, Bits.bit lines i = true → Bits.bit e.mask i = true ∧ Bits.bit e.value i = Bits.bit state i

variable {lines state : Int}

theorem Full.trueTo {e : Drive} (h : e.Full lines state) : e.TrueTo lines state := fun i hi _ => (h i hi).2

/-- A drive that has all lines inherits none of them. -/
theorem Full.inheritDrive {d : Drive} (h : d.Full lines state) (e : Drive) (m : Int) :
    (Board.inheritDrive d e m).Full lines state := by
  intro i hi
  obtain ⟨h1, h2⟩ := h i hi
  rw [Board.bit_mask_inheritDrive, Board.bit_value_inheritDrive, h1, h2]
  simp

/-- The open lines come from a drive that has them all. -/
theorem TrueTo.full_inheritDrive {d e : Drive} {before : Int} (hin : d.Inside) (h : d.TrueTo lines state)
    (he : e.Full lines before)
    (hopen : ∀ i, Bits.bit lines i = true → Bits.bit d.mask i = false → Bits.bit before i = Bits.bit state i) :
    (Board.inheritDrive d e lines).Full lines state := by
  intro i hi
  obtain ⟨h1, h2⟩ := he i hi
  rw [Board.bit_mask_inheritDrive, Board.bit_value_inheritDrive, hi, h1, h2]
  cases hm : Bits.bit d.mask i with
  | true => simpa using h i hi hm
  | false =>
    have hv : Bits.bit d.value i = false := by
      rw [← Bool.not_eq_true]
      exact fun hv => by simp [hin i hv] at hm
    simpa [hv] using hopen i hi hm

end Drive

namespace Draft

/-- No SET of the draft contradicts the signal on the given lines. -/
structure Faithful (signal : Int → Int) (lines : Int) (d : Draft) : Prop where
  inside : d.SetsInside
  trueTo : ∀ l ∈ d.sets, (d.board.get l).drive.TrueTo lines (signal (d.board.time l))

/-- The draft outlines the signal on the given lines. -/
structure Outlines (signal : Int → Int) (lines : Int) (d : Draft) : Prop extends Faithful signal lines d where
  edges : ∀ t i, Bits.bit lines i = true → Bits.bit (signal (t - 1)) i ≠ Bits.bit (signal t) i →
    ∃ l, d.Leads l ∧ d.board.time l = t ∧ Bits.bit (d.board.get l).drive.mask i = true

/-- Every SET of the draft carries the state of the tick that `time` gives it. -/
def Carries (signal : Int → Int) (lines : Int) (time : Label → Int) (d : Draft) : Prop :=
  ∀ l ∈ d.sets, (d.board.get l).drive.Full lines (signal (time l))

section Merge

variable {signal : Int → Int} {lines : Int} {d d' : Draft} {us : List Label} {heir : Label → Label}

/-- What the heir of a SET has on a line, some SET of the same tick has. -/
theorem Merged.exists_drive (h : d.Merged d' us heir) (hd : d.Linked) (hin : d.SetsInside) {l : Label}
    (hl : l ∈ d.sets) {i : Nat} (hi : Bits.bit (d'.board.get (heir l)).drive.mask i = true) :
    ∃ x ∈ d.sets, d.board.time x = d.board.time l ∧ Bits.bit (d.board.get x).drive.mask i = true ∧
      Bits.bit (d'.board.get (heir l)).drive.value i = Bits.bit (d.board.get x).drive.value i := by
  obtain ⟨e, he, hmask, hvalue⟩ := (h.heads hd hin hl).drive.exists_of_mask hi
  obtain ⟨x, hx, rfl⟩ := List.mem_map.1 he
  obtain ⟨hx, hkey⟩ := (mem_members (keyOf_mem_groups hl)).1 hx
  exact ⟨x, hx, congrArg Group.time hkey, hmask, hvalue⟩

/-- The heir of a SET has all lines of the SET. -/
theorem Merged.mask_heir (h : d.Merged d' us heir) (hd : d.Linked) (hin : d.SetsInside) {l : Label} (hl : l ∈ d.sets)
    {i : Nat} (hi : Bits.bit (d.board.get l).drive.mask i = true) :
    Bits.bit (d'.board.get (heir l)).drive.mask i = true := by
  rw [(h.heads hd hin hl).drive.mask, List.any_eq_true]
  exact ⟨_, List.mem_map.2 ⟨l, mem_members_keyOf hl, rfl⟩, hi⟩

theorem Merged.outlines (h : d.Merged d' us heir) (hd : d.Linked) (ho : d.Outlines signal lines) :
    d'.Outlines signal lines := by
  refine ⟨⟨h.setsInside hd ho.inside, fun l hl i hi hm => ?_⟩, fun t i hi hne => ?_⟩
  · obtain ⟨x, hx, rfl⟩ := (h.mem_sets_iff hd ho.inside).1 hl
    obtain ⟨y, hy, htime, hmask, hvalue⟩ := h.exists_drive hd ho.inside hx hm
    rw [hvalue, h.time_heir hd ho.inside (mem_sets.1 hx).1, ← htime]
    exact ho.trueTo y hy i hi hmask
  · obtain ⟨l, hlead, ht, hmask⟩ := ho.edges t i hi hne
    refine ⟨heir l, h.leads_heir hd ho.inside hlead, ?_, h.mask_heir hd ho.inside hlead.1 hmask⟩
    rw [h.time_heir hd ho.inside (mem_sets.1 hlead.1).1, ht]

theorem Merged.carries (h : d.Merged d' us heir) (hd : d.Linked) (hin : d.SetsInside)
    (hc : d.Carries signal lines d.board.time) : d'.Carries signal lines d'.board.time := by
  intro l hl i hi
  obtain ⟨x, hx, rfl⟩ := (h.mem_sets_iff hd hin).1 hl
  have hmask := h.mask_heir hd hin hx (hc x hx i hi).1
  obtain ⟨y, hy, htime, -, hvalue⟩ := h.exists_drive hd hin hx hmask
  refine ⟨hmask, ?_⟩
  rw [hvalue, h.time_heir hd hin (mem_sets.1 hx).1, ← htime]
  exact (hc y hy i hi).2

end Merge

/-! ## Inheritance -/

/-- The leading SET of a tick is the first one there. -/
def Ranked (d : Draft) : Prop :=
  ∀ l, d.Leads l → (d.sets.filter fun x => d.board.time x == d.board.time l).head? = some l

/-- A line that has no edge after one tick and up to another is the same at both. -/
theorem eq_of_no_edge {f : Int → Bool} {s t : Int} (hst : s ≤ t) (h : ∀ r, s < r → r ≤ t → f (r - 1) = f r) :
    f s = f t := by
  induction t, hst using Int.leInduction with
  | base => rfl
  | succ n hn ih =>
    have := h (n + 1) (by omega) (le_refl _)
    rw [Int.add_sub_cancel] at this
    rw [ih fun r h1 h2 => h r h1 (by omega), this]

section Inherit

variable {signal : Int → Int} {lines : Int} {d d' : Draft}

/-- A line that the next SET leaves open does not change before it. -/
theorem Outlines.eq_of_open (ho : d.Outlines signal lines) (hr : d.Ranked)
    (hsorted : d.sets.Pairwise fun x y => d.board.time x ≤ d.board.time y) {pre post : List Label} {p l : Label}
    (hsets : d.sets = pre ++ p :: l :: post) {i : Nat} (hi : Bits.bit lines i = true)
    (hm : Bits.bit (d.board.get l).drive.mask i = false) :
    Bits.bit (signal (d.board.time p)) i = Bits.bit (signal (d.board.time l)) i := by
  rw [hsets, List.pairwise_append] at hsorted
  obtain ⟨-, hcons, hcross⟩ := hsorted
  obtain ⟨hp, hcons⟩ := List.pairwise_cons.1 hcons
  obtain ⟨hl, -⟩ := List.pairwise_cons.1 hcons
  have hpl := hp l List.mem_cons_self
  refine eq_of_no_edge (f := fun t => Bits.bit (signal t) i) hpl fun t h1 h2 => ?_
  by_contra hne
  obtain ⟨x, hlead, htime, hmask⟩ := ho.edges t i hi hne
  -- the SET of the edge is `l` itself: it is not earlier, and no other SET comes first at the tick of `l`
  have hx := hlead.1
  rw [hsets] at hx
  simp only [List.mem_append, List.mem_cons] at hx
  have htl : t = d.board.time l := by
    rcases hx with hx | rfl | rfl | hx
    · have := hcross x hx p List.mem_cons_self
      omega
    · omega
    · exact htime.symm
    · have := hl x hx
      omega
  have hfirst := hr x hlead
  rw [hsets, htime, htl, List.filter_append, List.filter_eq_nil_iff.2, List.nil_append, List.filter_cons_of_neg,
    List.filter_cons_of_pos (by simp), List.head?_cons] at hfirst
  · cases hfirst
    rw [hmask] at hm
    cases hm
  · simp only [beq_iff_eq]
    omega
  · intro y hy
    have := hcross y hy p List.mem_cons_self
    simp only [beq_iff_eq]
    omega

/-- A draft that outlines a signal, with a first SET that has all lines, carries the signal after inheritance. -/
theorem full_of_inheritOutputs (ho : d.Outlines signal lines) (hd : d.Linked) (hr : d.Ranked)
    (hsorted : sorted d.board d.list = d.list)
    (hstart : ∃ l, d.Leads l ∧ d.board.time l = 0 ∧ (d.board.get l).drive.Full lines (signal 0))
    (h : d.inheritOutputs lines = .ok d') :
    d'.list = d.list ∧ d.board.Redriven d'.board ∧ d'.SetsInside ∧ d'.Carries signal lines d'.board.time := by
  have hnodup : d.sets.Nodup := hd.nodup.filter _
  have hsets : d.sort.sets = d.sets := by rw [Draft.sets, Draft.sets, board_sort, list_sort, hsorted]
  have hpairs : d.sets.Pairwise fun x y => d.board.time x ≤ d.board.time y := by
    have := (pairwise_time_sorted d.board d.list).filter fun l => (d.board.get l).isSet
    rwa [hsorted] at this
  obtain ⟨hlist, -⟩ := inheritOutputs_eq_ok h
  rw [hsorted] at hlist
  obtain ⟨hred, -, hfirst, -⟩ := chain_of_inheritOutputs hnodup h
  obtain ⟨l₀, hlead, htime, hfull⟩ := hstart
  have hall := @inheritOutputs_induction d d' lines
    (fun l e => e.Inside ∧ e.Full lines (signal (d.board.time l))) hnodup h
    (fun l hl => by
      -- the first SET is the leading one of tick 0
      have hzero := (hfirst l hl).1
      rw [hsets] at hl
      obtain ⟨rest, hcons⟩ := List.head?_eq_some_iff.1 hl
      have hleads := hr l₀ hlead
      rw [hcons, htime, List.filter_cons_of_pos (by simp [hzero]), List.head?_cons] at hleads
      obtain rfl := Option.some.inj hleads
      exact ⟨ho.inside l hlead.1, by rwa [hzero]⟩)
    (by
      refine List.isChain_iff_forall_rel_of_append_cons_cons.2 fun p l pre post hsplit e he => ?_
      rw [hsets] at hsplit
      have hl : l ∈ d.sets := by rw [hsplit]; simp
      refine ⟨Board.inside_inheritDrive (ho.inside l hl) lines, ?_⟩
      exact (ho.trueTo l hl).full_inheritDrive (ho.inside l hl) he.2 fun i hi hm =>
        ho.eq_of_open hr hpairs hsplit hi hm)
  have hsets' : d'.sets = d.sort.sets := by
    rw [hsets, Draft.sets, Draft.sets, hlist]
    exact List.filter_congr fun l _ => hred.sameLinks.isSet l
  rw [← hsets'] at hall
  exact ⟨hlist, hred, fun l hl => (hall l hl).1, fun l hl => by rw [hred.time_eq]; exact (hall l hl).2⟩

/-- SETs that carry a signal go on to do so when they inherit again. -/
theorem Carries.inheritOutputs {time : Label → Int} (hc : d.Carries signal lines time) (hd : d.Linked)
    (h : d.inheritOutputs lines = .ok d') :
    d'.list = sorted d.board d.list ∧ d.board.Redriven d'.board ∧ d'.Carries signal lines time :=
  drives_of_inheritOutputs (R := fun l e => e.Full lines (signal (time l))) hd hc
    (fun _ _ _ e hfull => hfull.inheritDrive e lines) h

end Inherit

end Draft

end PulseSequencer
