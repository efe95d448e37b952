import PulseSequencer.Proofs.Descent

/-!
# Tidy drafts

What the passes over a draft rely on, besides its links and its signal.

* `Draft.Tidy` : no instruction is before tick 0, SETs keep to the bus, and a block has one instruction at a tick;
* `Draft.Tidy.push`, `Draft.Tidy.pushJump` : drafts that grow;
* `Draft.Tidy.exists_mergeSets` : SETs of a tidy draft can be merged;
* `Draft.Tidy.of_merged`, `Draft.Tidy.of_redriven` : the passes keep it tidy.
-/

namespace PulseSequencer.Draft

/-- A draft on the lines of the control register and the given other ones. -/
structure Tidy (control lines : Int) (d : Draft) : Prop where
  nonneg : ∀ l ∈ d.list, 0 ≤ d.board.time l
  within : ∀ l ∈ d.sets, ∀ i, Bits.bit (d.board.get l).drive.mask i = true →
    Bits.bit control i = true ∨ Bits.bit lines i = true
  staggered : ∀ x ∈ d.list, ∀ y ∈ d.list, ∀ n, (d.board.get x).block = some n → (d.board.get y).block = some n →
    d.board.time x = d.board.time y → x = y

namespace Tidy

variable {control lines : Int} {d d' : Draft}

/-! ## Growing drafts -/

/-- One more instruction, which its block does not have at that tick. -/
theorem of_append_one (h : d.Tidy control lines) {g : Label} (hlist : d'.list = d.list ++ [g])
    (hold : ∀ l ∈ d.list, ∃ rs, d'.board.get l = { d.board.get l with reachedBy := rs }) (htime : 0 ≤ d'.board.time g)
    (hmask : (d'.board.get g).isSet = true → ∀ i, Bits.bit (d'.board.get g).drive.mask i = true →
      Bits.bit control i = true ∨ Bits.bit lines i = true)
    (hfresh : ∀ n, (d'.board.get g).block = some n → ∀ l ∈ d.list, (d.board.get l).block = some n →
      d.board.time l ≠ d'.board.time g) : d'.Tidy control lines := by
  have hmem : ∀ l ∈ d'.list, l ∈ d.list ∨ l = g := fun l hl => by
    rw [hlist] at hl
    exact (List.mem_append.1 hl).imp_right List.mem_singleton.1
  have hsame : ∀ l ∈ d.list, d'.board.time l = d.board.time l ∧ (d'.board.get l).block = (d.board.get l).block := by
    intro l hl
    obtain ⟨rs, hrs⟩ := hold l hl
    rw [Board.time, Board.time, hrs]
    exact ⟨rfl, rfl⟩
  refine ⟨fun l hl => ?_, fun l hl i hi => ?_, fun x hx y hy n hxn hyn hxy => ?_⟩
  · rcases hmem l hl with hl | rfl
    · rw [(hsame l hl).1]
      exact h.nonneg l hl
    · exact htime
  · obtain ⟨hl, hset⟩ := mem_sets.1 hl
    rcases hmem l hl with hl | rfl
    · obtain ⟨rs, hrs⟩ := hold l hl
      rw [hrs] at hset hi
      exact h.within l (mem_sets.2 ⟨hl, hset⟩) i hi
    · exact hmask hset i hi
  · rcases hmem x hx with hx | rfl <;> rcases hmem y hy with hy | rfl
    · rw [(hsame x hx).1, (hsame y hy).1] at hxy
      exact h.staggered x hx y hy n ((hsame x hx).2 ▸ hxn) ((hsame y hy).2 ▸ hyn) hxy
    · rw [(hsame x hx).1] at hxy
      exact absurd hxy (hfresh n hyn x hx ((hsame x hx).2 ▸ hxn))
    · rw [(hsame y hy).1] at hxy
      exact absurd hxy.symm (hfresh n hxn y hy ((hsame y hy).2 ▸ hyn))
    · rfl

theorem push (h : d.Tidy control lines) (hd : d.Linked) {i : Instruction} (htime : 0 ≤ i.time)
    (hmask : ∀ j, Bits.bit i.drive.mask j = true → Bits.bit control j = true ∨ Bits.bit lines j = true)
    (hfresh : ∀ n, i.block = some n → ∀ l ∈ d.list, (d.board.get l).block = some n → d.board.time l ≠ i.time) :
    (d.push i).Tidy control lines := by
  have hget := get_push_size d i
  refine h.of_append_one (list_push d i)
    (fun l hl => ⟨(d.board.get l).reachedBy, get_push_of_lt i (hd.valid l hl)⟩) ?_ ?_ ?_
  · rwa [Board.time, hget]
  · rw [hget]
    exact fun _ => hmask
  · rw [Board.time, hget]
    exact hfresh

theorem pushJump (h : d.Tidy control lines) (hd : d.Linked) {time : Int} {g : Label} {always : Bool}
    {channel threshold : Binary64} {block : Option String} (hg : g ∈ d.list) (htime : 0 ≤ time)
    (hfresh : ∀ n, block = some n → ∀ l ∈ d.list, (d.board.get l).block = some n → d.board.time l ≠ time) :
    (d.pushJump time g always channel threshold block).Tidy control lines := by
  have hlt := hd.valid g hg
  have hget : (d.pushJump time g always channel threshold block).board.get d.board.size = _ := get_pushJump_size hlt
  have hgrow : Grows block.toList [g] [d.board.size] d (d.pushJump time g always channel threshold block) :=
    grows_pushJump hlt (by simp)
  refine h.of_append_one rfl (fun l hl => hgrow.alike l (hd.valid l hl)) ?_ ?_ ?_
  · rwa [Board.time, hget]
  · rw [hget]
    exact fun hset => by cases hset
  · rw [Board.time, hget]
    exact hfresh

/-! ## Merging -/

/-- A list in which only one element has an image is mapped to at most one. -/
theorem exists_filterMap_eq_toList {α β : Type} {f : α → Option β} {xs : List α} (hnodup : xs.Nodup)
    (h : ∀ x ∈ xs, ∀ y ∈ xs, f x ≠ none → f y ≠ none → x = y) : ∃ r : Option β, xs.filterMap f = r.toList := by
  induction xs with
  | nil => exact ⟨none, rfl⟩
  | cons x xs ih =>
    obtain ⟨hx, hnodup⟩ := List.nodup_cons.1 hnodup
    cases hfx : f x with
    | none =>
      rw [List.filterMap_cons_none hfx]
      exact ih hnodup fun y hy z hz => h y (List.mem_cons_of_mem _ hy) z (List.mem_cons_of_mem _ hz)
    | some b =>
      refine ⟨some b, ?_⟩
      rw [List.filterMap_cons_some hfx, List.filterMap_eq_nil_iff.2 fun y hy => ?_]
      · rfl
      · by_contra hfy
        have heq := h x List.mem_cons_self y (List.mem_cons_of_mem _ hy) (by rw [hfx]; simp) hfy
        exact hx (heq ▸ hy)

/-- The SETs of a group agree: off the control register they show the signal of their tick. -/
theorem unitable {signal : Int → Int} (h : d.Tidy control lines) (hd : d.Linked) (hf : d.Faithful signal lines) :
    ∀ g ∈ d.gathered, d.board.Unitable control g := by
  intro g hg
  obtain ⟨k, hk, rfl⟩ := List.mem_map.1 hg
  have hmem : ∀ l ∈ members d.board d.sets k, l ∈ d.sets ∧ keyOf d.board d.sets l = k := fun l => (mem_members hk).1
  have htime : ∀ l ∈ members d.board d.sets k, d.board.time l = k.time := by
    intro l hl
    obtain ⟨-, rfl⟩ := hmem l hl
    rfl
  -- the members in a block are in the block of the group
  have hblock : ∀ l ∈ members d.board d.sets k, (d.board.get l).block ≠ none → (d.board.get l).block = k.block := by
    intro l hl hne
    obtain ⟨name, hname⟩ := Option.ne_none_iff_exists'.1 hne
    obtain ⟨-, rfl⟩ := hmem l hl
    rw [keyOf, hname]
    rfl
  refine ⟨?_, fun l hl => hf.inside l (hmem l hl).1, fun x hx y hy => (htime x hx).trans (htime y hy).symm, ?_,
    fun i hi x hx y hy hxi hyi => ?_⟩
  · obtain ⟨l, hl, rfl⟩ := mem_groups.1 hk
    exact List.ne_nil_of_mem (mem_members_keyOf hl)
  · refine exists_filterMap_eq_toList (nodup_members (hd.nodup.filter _) k) fun x hx y hy hxn hyn => ?_
    obtain ⟨name, hname⟩ := Option.ne_none_iff_exists'.1 hxn
    refine h.staggered x (mem_sets.1 (hmem x hx).1).1 y (mem_sets.1 (hmem y hy).1).1 name hname ?_
      ((htime x hx).trans (htime y hy).symm)
    rw [hblock y hy hyn, ← hblock x hx hxn, hname]
  · have hline : ∀ l ∈ members d.board d.sets k, Bits.bit (d.board.get l).drive.mask i = true →
        Bits.bit (d.board.get l).drive.value i = Bits.bit (signal k.time) i := by
      intro l hl hli
      rcases h.within l (hmem l hl).1 i hli with hcontrol | hlines
      · rw [hi] at hcontrol
        cases hcontrol
      · rw [hf.trueTo l (hmem l hl).1 i hlines hli, htime l hl]
    rw [hline x hx hxi, hline y hy hyi]

theorem exists_mergeSets {signal : Int → Int} (h : d.Tidy control lines) (hd : d.Linked)
    (hf : d.Faithful signal lines) : ∃ d', (d.mergeSets control).outcome = .ok d' :=
  hd.exists_mergeSets hf.inside (h.unitable hd hf)

/-- Blocks stay staggered from one draft to the next. -/
theorem staggered_of_descends {heir : Label → Label} (h : d.Tidy control lines) (hdesc : d.Descends d' heir) :
    ∀ x ∈ d'.list, ∀ y ∈ d'.list, ∀ n, (d'.board.get x).block = some n → (d'.board.get y).block = some n →
      d'.board.time x = d'.board.time y → x = y := by
  intro x hx y hy n hxn hyn hxy
  obtain ⟨a, ha, rfl, han⟩ := hdesc.blocked x hx n hxn
  obtain ⟨b, hb, rfl, hbn⟩ := hdesc.blocked y hy n hyn
  rw [hdesc.time a ha, hdesc.time b hb] at hxy
  rw [h.staggered a ha b hb n han hbn hxy]

theorem of_merged {us : List Label} {heir : Label → Label} (h : d.Tidy control lines) (hd : d.Linked)
    (hin : d.SetsInside) (hm : d.Merged d' us heir) : d'.Tidy control lines := by
  refine ⟨fun l hl => ?_, fun l hl i hi => ?_, h.staggered_of_descends (hm.descends hd hin)⟩
  · obtain ⟨x, hx, rfl⟩ := (hm.mem_list hd hin).1 hl
    rw [hm.time_heir hd hin hx]
    exact h.nonneg x hx
  · obtain ⟨x, hx, rfl⟩ := (hm.mem_sets_iff hd hin).1 hl
    obtain ⟨y, hy, -, hmask, -⟩ := hm.exists_drive hd hin hx hi
    exact h.within y hy i hmask

theorem of_redriven (h : d.Tidy control lines) (hb : d.board.Redriven d'.board) (hlist : d'.list.Perm d.list)
    (hmask : ∀ l ∈ d'.sets, ∀ i, Bits.bit (d'.board.get l).drive.mask i = true →
      Bits.bit control i = true ∨ Bits.bit lines i = true) : d'.Tidy control lines :=
  ⟨fun l hl => by rw [hb.time_eq]; exact h.nonneg l (hlist.mem_iff.1 hl), hmask,
    h.staggered_of_descends (descends_of_redriven hb hlist)⟩

theorem sort (h : d.Tidy control lines) : d.sort.Tidy control lines :=
  h.of_redriven (.refl _) (perm_sorted _ _) fun l hl => h.within l (by
    rwa [mem_sets, board_sort, list_sort, mem_sorted, ← mem_sets] at hl)

theorem of_inheritOutputs (h : d.Tidy control lines) (hd : d.Linked) (hi : d.inheritOutputs lines = .ok d') :
    d'.Tidy control lines := by
  have hkeep : ∀ l ∈ d.sets, ∀ e e' : Drive,
      (∀ i, Bits.bit e.mask i = true → Bits.bit control i = true ∨ Bits.bit lines i = true) →
      ∀ i, Bits.bit (Board.inheritDrive e e' lines).mask i = true →
        Bits.bit control i = true ∨ Bits.bit lines i = true := by
    intro _ _ e e' he i hmask
    rw [Board.bit_mask_inheritDrive, Bool.or_eq_true, Bool.and_eq_true] at hmask
    rcases hmask with hmask | ⟨hline, -⟩
    · exact he i hmask
    · exact .inr hline
  obtain ⟨hlist, hred, hmask⟩ := drives_of_inheritOutputs (R := fun _ e => ∀ i, Bits.bit e.mask i = true →
    Bits.bit control i = true ∨ Bits.bit lines i = true) hd h.within hkeep hi
  exact h.of_redriven hred (hlist ▸ perm_sorted _ _) hmask

end Tidy

end PulseSequencer.Draft
