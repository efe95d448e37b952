import PulseSequencer.Proofs.Growth

/-!
# From one draft to the next

Every instruction of a draft has an heir in the drafts that follow. SETs are merged and carry more, other instructions
stay, their targets following the heirs.

* `Draft.Descends`, `Draft.Descends.trans` : the relation, over several steps;
* `Draft.Merged.descends`, `Draft.descends_of_redriven`, `Draft.descends_push` : the steps.
-/

namespace PulseSequencer.Draft

/-- The draft `d'` comes from `d`, `heir` leading from the instructions of `d` to those of `d'`. -/
structure Descends (d d' : Draft) (heir : Label → Label) : Prop where
  mem : ∀ l ∈ d.list, heir l ∈ d'.list
  time : ∀ l ∈ d.list, d'.board.time (heir l) = d.board.time l
  isSet : ∀ l ∈ d.list, (d'.board.get (heir l)).isSet = (d.board.get l).isSet
  block : ∀ l ∈ d.list, ∀ n, (d.board.get l).block = some n → (d'.board.get (heir l)).block = some n
  other : ∀ l ∈ d.list, (d.board.get l).isSet = false →
    heir l = l ∧ d'.board.get l = (d.board.get l).retarget heir
  back : ∀ l ∈ d'.list, (d'.board.get l).isSet = false → l ∈ d.list ∧ (d.board.get l).isSet = false
  blocked : ∀ l ∈ d'.list, ∀ n, (d'.board.get l).block = some n →
    ∃ x ∈ d.list, heir x = l ∧ (d.board.get x).block = some n

variable {d d' d'' : Draft} {heir heir' : Label → Label}

theorem Descends.trans (h : d.Descends d' heir) (h' : d'.Descends d'' heir') : d.Descends d'' (heir' ∘ heir) where
  mem l hl := h'.mem _ (h.mem l hl)
  time l hl := (h'.time _ (h.mem l hl)).trans (h.time l hl)
  isSet l hl := (h'.isSet _ (h.mem l hl)).trans (h.isSet l hl)
  block l hl n hn := h'.block _ (h.mem l hl) n (h.block l hl n hn)
  other l hl hset := by
    obtain ⟨h1, h2⟩ := h.other l hl hset
    have hl' : l ∈ d'.list := by
      have := h.mem l hl
      rwa [h1] at this
    obtain ⟨h3, h4⟩ := h'.other l hl' (by rw [h2, Instruction.isSet_retarget]; exact hset)
    refine ⟨by rw [Function.comp_apply, h1, h3], ?_⟩
    rw [h4, h2, Instruction.retarget_retarget]
  back l hl hset := by
    obtain ⟨h1, h2⟩ := h'.back l hl hset
    exact h.back l h1 h2
  blocked l hl n hn := by
    obtain ⟨y, hy, rfl, hn'⟩ := h'.blocked l hl n hn
    obtain ⟨x, hx, rfl, hn''⟩ := h.blocked y hy n hn'
    exact ⟨x, hx, rfl, hn''⟩

theorem descends_of_redriven (hb : d.board.Redriven d'.board) (hlist : d'.list.Perm d.list) : d.Descends d' id where
  mem l hl := hlist.mem_iff.2 hl
  time l _ := hb.time_eq l
  isSet l _ := hb.sameLinks.isSet l
  block l _ n hn := (hb.block_eq l).trans hn
  other l _ hset := ⟨rfl, by rw [hb.get_of_not_isSet hset, Instruction.retarget_id]⟩
  back l hl hset := ⟨hlist.mem_iff.1 hl, by rw [← hb.sameLinks.isSet l]; exact hset⟩
  blocked l hl n hn := ⟨l, hlist.mem_iff.1 hl, rfl, by rw [← hb.block_eq l]; exact hn⟩

theorem descends_push (hd : d.Linked) {i : Instruction} (hi : i.isSet = true) (hblock : i.block = none) :
    d.Descends (d.push i) id := by
  have hget : ∀ l ∈ d.list, (d.push i).board.get l = d.board.get l := fun l hl => get_push_of_lt i (hd.valid l hl)
  refine ⟨fun l hl => List.mem_append_left _ hl, fun l hl => ?_, fun l hl => ?_, fun l hl n hn => ?_, fun l hl _ => ?_,
    fun l hl hset => ?_, fun l hl n hn => ?_⟩
  · rw [id, Board.time, hget l hl, Board.time]
  · rw [id, hget l hl]
  · rw [id, hget l hl, hn]
  · exact ⟨rfl, by rw [hget l hl, Instruction.retarget_id]⟩
  · rcases List.mem_append.1 hl with hl | hl
    · rw [hget l hl] at hset
      exact ⟨hl, hset⟩
    · rw [List.mem_singleton.1 hl, get_push_size, hi] at hset
      cases hset
  · rcases List.mem_append.1 hl with hl | hl
    · exact ⟨l, hl, rfl, by rw [← hget l hl]; exact hn⟩
    · rw [List.mem_singleton.1 hl, get_push_size, hblock] at hn
      cases hn

theorem Merged.descends {us : List Label} (h : d.Merged d' us heir) (hd : d.Linked) (hin : d.SetsInside) :
    d.Descends d' heir := by
  refine ⟨fun l hl => (h.mem_list hd hin).2 ⟨l, hl, rfl⟩, fun l hl => h.time_heir hd hin hl,
    fun l hl => h.isSet_heir hd hin hl, fun l hl n hn => ?_,
    fun l hl hset => ⟨h.heir_of_not_isSet hset, h.get_eq hl⟩, fun l hl hset => ?_, fun l hl n hn => ?_⟩
  · cases hset : (d.board.get l).isSet with
    | true =>
      rw [h.block_heir hd hin (mem_sets.2 ⟨hl, hset⟩), keyOf, hn]
      rfl
    | false => rw [h.heir_of_not_isSet hset, h.get_eq hl, Instruction.block_retarget, hn]
  · obtain ⟨x, hx, rfl⟩ := (h.mem_list hd hin).1 hl
    rw [h.isSet_heir hd hin hx] at hset
    rw [h.heir_of_not_isSet hset]
    exact ⟨hx, hset⟩
  · obtain ⟨x, hx, rfl⟩ := (h.mem_list hd hin).1 hl
    cases hset : (d.board.get x).isSet with
    | true =>
      have hx' := mem_sets.2 ⟨hx, hset⟩
      rw [h.block_heir hd hin hx'] at hn
      obtain ⟨m, hm, hm'⟩ := exists_blocked hx' hn
      have hmem := ((mem_members (keyOf_mem_groups hx')).1 hm).1
      exact ⟨m, (mem_sets.1 hmem).1, h.heir_of_mem hd hin (h.pair_heir hd hin hx') hm, hm'⟩
    | false =>
      rw [h.heir_of_not_isSet hset, h.get_eq hx, Instruction.block_retarget] at hn
      exact ⟨x, hx, rfl, hn⟩

end PulseSequencer.Draft
