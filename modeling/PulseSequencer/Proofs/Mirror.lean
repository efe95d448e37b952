import PulseSequencer.Proofs.Descent
import PulseSequencer.Proofs.Gaps
import PulseSequencer.Proofs.Inherit
import PulseSequencer.Schedule.Block

/-!
# Drafts under other labels

Two drafts can be the same program under different labels, the END of one at a later tick than that of the other. What
the passes make of them is then the same again: they look at times, blocks and actions only, and never at the labels
themselves.

* `Instruction.mirror`, `Board.Mirrored`, `Draft.Mirrored` : the same under other labels, with another END;
* `Board.Closes` : everything stands before the END;
* `Draft.Mirrored.sort`, `Draft.Mirrored.mergeSets`, `Draft.Mirrored.inheritOutputs` : passes of mirrored drafts.
-/

namespace PulseSequencer

theorem Sort.sortBy_map {α β : Type} {le : α → α → Bool} {le' : β → β → Bool} {f : α → β} {xs : List α}
    (h : ∀ x ∈ xs, ∀ y ∈ xs, le' (f x) (f y) = le x y) : sortBy le' (xs.map f) = (sortBy le xs).map f := by
  have hinsert : ∀ {x : α} {ys : List α}, (∀ y ∈ ys, le' (f x) (f y) = le x y) →
      insertBy le' (f x) (ys.map f) = (insertBy le x ys).map f := by
    intro x ys hys
    induction ys with
    | nil => rfl
    | cons y ys ih =>
      rw [List.map_cons, insertBy, insertBy, hys y List.mem_cons_self, ih fun z hz => hys z (List.mem_cons_of_mem _ hz)]
      split <;> rfl
  induction xs with
  | nil => rfl
  | cons x xs ih =>
    rw [List.map_cons, sortBy, sortBy,
      ih fun y hy z hz => h y (List.mem_cons_of_mem _ hy) z (List.mem_cons_of_mem _ hz)]
    exact hinsert fun y hy => h x List.mem_cons_self y (List.mem_cons_of_mem _ (mem_sortBy.1 hy))

/-! ## Instructions -/

namespace Instruction

/-- The instruction under other labels, and with the END at tick `e`. -/
def mirror (φ : Label → Label) (e : Int) (i : Instruction) : Instruction :=
  { i.retarget φ with time := if i.action = .stop then e else i.time, reachedBy := i.reachedBy.map φ }

variable {φ : Label → Label} {e : Int} {i : Instruction}

@[simp] theorem block_mirror : (i.mirror φ e).block = i.block := block_retarget φ i

@[simp] theorem reachedBy_mirror : (i.mirror φ e).reachedBy = i.reachedBy.map φ := rfl

@[simp] theorem isSet_mirror : (i.mirror φ e).isSet = i.isSet := isSet_retarget φ i

@[simp] theorem opcode_mirror : (i.mirror φ e).opcode = i.opcode := opcode_retarget φ i

theorem time_mirror (h : i.action ≠ .stop) : (i.mirror φ e).time = i.time := if_neg h

theorem mirror_of_isSet (h : i.isSet = true) : i.mirror φ e = { i with reachedBy := i.reachedBy.map φ } := by
  have hne : i.action ≠ .stop := by rw [action_eq_of_isSet h]; simp
  rw [mirror, retarget_of_target?_eq_none (target?_of_isSet h), if_neg hne]

theorem ne_stop_of_isSet (h : i.isSet = true) : i.action ≠ .stop := by
  rw [action_eq_of_isSet h]
  simp

@[simp] theorem drive_mirror : (i.mirror φ e).drive = i.drive := by
  unfold mirror retarget drive
  cases hact : i.action <;> simp [hact]

@[simp] theorem mirror_default : (default : Instruction).mirror φ e = default := rfl

theorem mirror_setTime (h : i.action ≠ .stop) (time : Int) :
    { i.mirror φ e with time } = { i with time }.mirror φ e := by
  obtain ⟨t, block, address, reachedBy, action⟩ := i
  cases action <;> first | rfl | exact absurd rfl h

theorem mirror_append (l : Label) : { i.mirror φ e with reachedBy := (i.mirror φ e).reachedBy ++ [φ l] } =
    { i with reachedBy := i.reachedBy ++ [l] }.mirror φ e := by
  rw [reachedBy_mirror, ← List.map_singleton, ← List.map_append]
  obtain ⟨t, block, address, reachedBy, action⟩ := i
  cases action <;> rfl

theorem redirect_mirror (g : Label) : Board.redirect (φ g) (i.mirror φ e) = (Board.redirect g i).mirror φ e := by
  obtain ⟨time, block, address, reachedBy, action⟩ := i
  cases action <;> rfl

end Instruction

/-! ## Boards -/

namespace Board

/-- The labels `S` of `b` are those of `b'` under other names, new labels included. -/
structure Mirrored (φ : Label → Label) (e : Int) (S : Set Label) (b b' : Board) : Prop where
  new : ∀ i, b.size + i ∈ S ∧ φ (b.size + i) = b'.size + i
  inj : Set.InjOn φ S
  closed : ∀ l ∈ S, ∀ m ∈ (b.get l).reachedBy, m ∈ S
  cell : ∀ l ∈ S, b'.get (φ l) = (b.get l).mirror φ e

namespace Mirrored

variable {φ : Label → Label} {e : Int} {S : Set Label} {b b' : Board}

theorem lt_size_iff (h : Mirrored φ e S b b') {l : Label} (hl : l ∈ S) : φ l < b'.size ↔ l < b.size := by
  constructor
  · intro hlt
    by_contra hge
    obtain ⟨i, rfl⟩ := Nat.exists_eq_add_of_le (Nat.not_lt.1 hge)
    rw [(h.new i).2] at hlt
    exact absurd hlt (Nat.not_lt.2 (Nat.le_add_right _ _))
  · intro hlt
    by_contra hge
    obtain ⟨i, hi⟩ := Nat.exists_eq_add_of_le (Nat.not_lt.1 hge)
    have heq := h.inj hl (h.new i).1 (hi.trans (h.new i).2.symm)
    exact absurd (heq ▸ hlt) (Nat.not_lt.2 (Nat.le_add_right _ _))

theorem size_mem (h : Mirrored φ e S b b') : b.size ∈ S ∧ φ b.size = b'.size := h.new 0

theorem add (h : Mirrored φ e S b b') {i : Instruction} (hi : ∀ m ∈ i.reachedBy, m ∈ S) :
    Mirrored φ e S (b.add i).2 (b'.add (i.mirror φ e)).2 := by
  obtain ⟨hsize, hφ⟩ := h.size_mem
  refine ⟨fun j => ?_, h.inj, fun l hl => ?_, fun l hl => ?_⟩
  · rw [size_add, size_add]
    have := h.new (1 + j)
    simpa [Nat.add_assoc] using this
  · rw [get_add]
    split
    · exact hi
    · exact h.closed l hl
  · by_cases heq : l = b.size
    · rw [heq, hφ, get_add_size, get_add_size]
    · have hne : φ l ≠ b'.size := fun h' => heq (h.inj hl hsize (h'.trans hφ.symm))
      rw [get_add, if_neg hne, get_add, if_neg heq]
      exact h.cell l hl

theorem modify (h : Mirrored φ e S b b') {l : Label} (hl : l ∈ S) {f f' : Instruction → Instruction}
    (hf : f' ((b.get l).mirror φ e) = (f (b.get l)).mirror φ e)
    (hreach : ∀ m ∈ (f (b.get l)).reachedBy, m ∈ S) :
    Mirrored φ e S (b.modify l f) (b'.modify (φ l) f') := by
  refine ⟨fun j => ?_, h.inj, fun m hm => ?_, fun m hm => ?_⟩
  · rw [size_modify, size_modify]
    exact h.new j
  · rw [get_modify]
    split
    · rename_i heq
      rw [heq.1]
      exact hreach
    · exact h.closed m hm
  · by_cases hat : m = l ∧ l < b.size
    · rw [hat.1, get_modify_self f' ((h.lt_size_iff hl).2 hat.2), get_modify_self f hat.2, h.cell l hl, hf]
    · have hat' : ¬ (φ m = φ l ∧ φ l < b'.size) := fun h' => hat ⟨h.inj hm hl h'.1, (h.lt_size_iff hl).1 h'.2⟩
      rw [get_modify, if_neg hat', get_modify, if_neg hat]
      exact h.cell m hm

/-- Jumps are sent to a new target. -/
theorem redirect (h : Mirrored φ e S b b') {g : Label} {ls : List Label} (hls : ∀ l ∈ ls, l ∈ S) :
    Mirrored φ e S (ls.foldl (fun b l => b.modify l (Board.redirect g)) b)
      ((ls.map φ).foldl (fun b l => b.modify l (Board.redirect (φ g))) b') := by
  induction ls generalizing b b' with
  | nil => exact h
  | cons l ls ih =>
    refine ih (h.modify (hls l List.mem_cons_self) ?_ ?_) fun m hm => hls m (List.mem_cons_of_mem _ hm)
    · exact Instruction.redirect_mirror g
    · rw [redirect_eq_retarget, Instruction.reachedBy_retarget]
      exact h.closed l (hls l List.mem_cons_self)

section Sets

variable (h : Mirrored φ e S b b') {sets : List Label} (hsets : ∀ l ∈ sets, l ∈ S ∧ (b.get l).isSet = true)

include h

theorem cell_of_isSet {l : Label} (hl : l ∈ S) (hset : (b.get l).isSet = true) :
    b'.get (φ l) = { b.get l with reachedBy := (b.get l).reachedBy.map φ } := by
  rw [h.cell l hl, Instruction.mirror_of_isSet hset]

include hsets

theorem commonBlock_eq {time : Int} : ∀ {block : Option String},
    b'.commonBlock time block (sets.map φ) = b.commonBlock time block sets := by
  induction sets with
  | nil => exact rfl
  | cons l ls ih =>
    intro block
    obtain ⟨hl, hset⟩ := hsets l List.mem_cons_self
    have hcell := h.cell_of_isSet hl hset
    have hrest : ∀ {block}, b'.commonBlock time block (ls.map φ) = b.commonBlock time block ls :=
      ih fun m hm => hsets m (List.mem_cons_of_mem _ hm)
    rw [List.map_cons, commonBlock, commonBlock, hcell]
    simp only [hrest]

theorem unite {m : Int} {u : Label} {b₁ : Board} (hu : (b.unite m sets).outcome = .ok (u, b₁)) :
    u = b.size ∧ ∃ b₁', (b'.unite m (sets.map φ)).outcome = .ok (φ u, b₁') ∧ Mirrored φ e S b₁ b₁' := by
  obtain ⟨first, block, d, hfirst, hblock, hd, hin, rfl, rfl⟩ := unite_eq_ok.1 hu
  have hcell : ∀ l ∈ sets, b'.get (φ l) = { b.get l with reachedBy := (b.get l).reachedBy.map φ } := fun l hl =>
    h.cell_of_isSet (hsets l hl).1 (hsets l hl).2
  have htime : b'.time (φ first) = b.time first := by
    rw [time_eq, hcell first (List.mem_of_head? hfirst)]
    rfl
  have hdrives : (sets.map φ).map (fun l => (b'.get l).drive) = sets.map fun l => (b.get l).drive := by
    rw [List.map_map]
    refine List.map_congr_left fun l hl => ?_
    rw [Function.comp_apply, hcell l hl]
    rfl
  have hreached : (sets.map φ).flatMap (fun l => (b'.get l).reachedBy) =
      (sets.flatMap fun l => (b.get l).reachedBy).map φ := by
    rw [List.flatMap_map, List.map_flatMap]
    refine List.flatMap_congr fun l hl => ?_
    rw [hcell l hl]
  have hlive : ∀ l ∈ sets.flatMap (fun l => (b.get l).reachedBy), l ∈ S := fun l hl => by
    obtain ⟨x, hx, hl⟩ := List.mem_flatMap.1 hl
    exact h.closed x (hsets x hx).1 l hl
  refine ⟨rfl, _,
    unite_eq_ok.2 ⟨φ first, block, d, by rw [List.head?_map, hfirst]; rfl, ?_, ?_, hin, h.size_mem.2, rfl⟩, ?_⟩
  · rw [htime, h.commonBlock_eq hsets, hblock]
  · rw [htime, hdrives, hd]
  · rw [hreached, htime]
    exact (h.add (i := ⟨b.time first, block, none, sets.flatMap fun l => (b.get l).reachedBy, .set d⟩) hlive).redirect
      hlive

end Sets

end Mirrored

/-- The END is `z`, alone in its block at tick `e`, and everything else stands before it. -/
structure Closes (b : Board) (z : Label) (e : Int) (ls : List Label) : Prop where
  mem : z ∈ ls
  stop : (b.get z).action = .stop
  block : (b.get z).block = some Block.endName
  time : b.time z = e
  other : ∀ l ∈ ls, l ≠ z → (b.get l).action ≠ .stop ∧ (b.get l).block ≠ some Block.endName ∧ b.time l < e

namespace Closes

variable {φ : Label → Label} {b b' : Board} {z : Label} {e₀ e : Int} {ls ls' : List Label}

theorem of_redriven (hc : b.Closes z e₀ ls) (hb : b.Redriven b') (hperm : ls'.Perm ls) : b'.Closes z e₀ ls' where
  mem := hperm.mem_iff.2 hc.mem
  stop := by rw [hb.get_of_not_isSet (by rw [Instruction.isSet, hc.stop]), hc.stop]
  block := by rw [hb.block_eq, hc.block]
  time := by rw [hb.time_eq, hc.time]
  other l hl hne := by
    obtain ⟨hstop, hblock, htime⟩ := hc.other l (hperm.mem_iff.1 hl) hne
    rw [hb.block_eq, hb.time_eq]
    refine ⟨fun hstop' => hstop ?_, hblock, htime⟩
    have hset : (b.get l).isSet = false := by rw [← hb.sameLinks.isSet, Instruction.isSet, hstop']
    rwa [hb.get_of_not_isSet hset] at hstop'

/-- A later END comes after the same instructions. -/
theorem before_mirror (hc : b.Closes z e₀ ls) (he : e₀ ≤ e) {x y : Label} (hx : x ∈ ls) (hy : y ∈ ls) :
    ((b.get x).mirror φ e).before ((b.get y).mirror φ e) = (b.get x).before (b.get y) := by
  have hz : ((b.get z).mirror φ e).time = e := if_pos hc.stop
  have htime : ∀ l ∈ ls, l ≠ z → ((b.get l).mirror φ e).time = b.time l := fun l hl hne =>
    Instruction.time_mirror (hc.other l hl hne).1
  have hlt : ∀ l ∈ ls, l ≠ z → b.time l < e := fun l hl hne => lt_of_lt_of_le (hc.other l hl hne).2.2 he
  have hlt₀ : ∀ l ∈ ls, l ≠ z → b.time l < b.time z := fun l hl hne => by
    rw [hc.time]
    exact (hc.other l hl hne).2.2
  unfold Instruction.before
  rw [Instruction.opcode_mirror, Instruction.opcode_mirror]
  change (decide (_ < _) || (_ == _) && _) = (decide (b.time x < b.time y) || (b.time x == b.time y) && _)
  by_cases hxz : x = z
  · by_cases hyz : y = z
    · rw [hxz, hyz]
      simp
    · rw [hxz, hz, htime y hy hyz, decide_eq_false (hlt y hy hyz).not_gt, decide_eq_false (hlt₀ y hy hyz).not_gt,
        beq_false_of_ne (hlt y hy hyz).ne', beq_false_of_ne (hlt₀ y hy hyz).ne']
  · by_cases hyz : y = z
    · rw [hyz, hz, htime x hx hxz, decide_eq_true (hlt x hx hxz), decide_eq_true (hlt₀ x hx hxz), Bool.true_or,
        Bool.true_or]
    · rw [htime x hx hxz, htime y hy hyz]

end Closes

end Board

/-! ## Drafts -/

namespace Draft

/-- The draft `d'` is `d` under other labels, with the END at tick `e`. -/
structure Mirrored (φ : Label → Label) (e : Int) (S : Set Label) (d d' : Draft) : Prop where
  board : d.board.Mirrored φ e S d'.board
  list : d'.list = d.list.map φ
  live : ∀ l ∈ d.list, l ∈ S

variable {φ : Label → Label} {e₀ e : Int} {S : Set Label} {b b' : Board} {d d' d₁ : Draft} {z : Label} {ls : List Label}

/-- A merge keeps the END and the times. -/
theorem closes_of_merged {us : List Label} {heir : Label → Label} (hc : d.board.Closes z e₀ d.list)
    (hm : d.Merged d₁ us heir) (hd : d.Linked) (hin : d.SetsInside) : d₁.board.Closes z e₀ d₁.list := by
  have hdesc := hm.descends hd hin
  have hset : (d.board.get z).isSet = false := by rw [Instruction.isSet, hc.stop]
  obtain ⟨hself, hget⟩ := hdesc.other z hc.mem hset
  rw [Instruction.retarget_of_target?_eq_none (by rw [Instruction.target?, hc.stop])] at hget
  have hmem := hdesc.mem z hc.mem
  rw [hself] at hmem
  refine ⟨hmem, by rw [hget]; exact hc.stop, by rw [hget]; exact hc.block, by rw [Board.time, hget]; exact hc.time,
    fun l hl hne => ⟨fun hstop => ?_, fun hblock => ?_, ?_⟩⟩
  · -- no SET becomes an END
    obtain ⟨hl', hset'⟩ := hdesc.back l hl (by rw [Instruction.isSet, hstop])
    rw [(hdesc.other l hl' hset').2] at hstop
    refine (hc.other l hl' hne).1 ?_
    unfold Instruction.retarget at hstop
    split at hstop
    · cases hstop
    · exact hstop
  · obtain ⟨x, hx, hheir, hblock'⟩ := hdesc.blocked l hl _ hblock
    refine (hc.other x hx fun heq => hne ?_).2.1 hblock'
    rw [← hheir, heq, hself]
  · obtain ⟨x, hx, rfl⟩ := (hm.mem_list hd hin).1 hl
    rw [hm.time_heir hd hin hx]
    refine (hc.other x hx fun heq => hne ?_).2.2
    rw [heq, hself]

namespace Mirrored

theorem sorted_eq (h : b.Mirrored φ e S b') (hls : ∀ l ∈ ls, l ∈ S) (hc : b.Closes z e₀ ls) (he : e₀ ≤ e) :
    sorted b' (ls.map φ) = (sorted b ls).map φ := by
  refine Sort.sortBy_map fun x hx y hy => ?_
  rw [h.cell x (hls x hx), h.cell y (hls y hy)]
  exact hc.before_mirror he hx hy

theorem sort (h : d.Mirrored φ e S d') (hc : d.board.Closes z e₀ d.list) (he : e₀ ≤ e) :
    d.sort.Mirrored φ e S d'.sort where
  board := h.board
  list := by
    rw [list_sort, list_sort, h.list]
    exact sorted_eq h.board h.live hc he
  live l hl := h.live l (mem_sorted.1 hl)

theorem filter_map_eq {p p' : Label → Bool} (hp : ∀ l ∈ ls, p' (φ l) = p l) :
    (ls.map φ).filter p' = (ls.filter p).map φ := by
  rw [List.filter_map]
  exact congrArg _ (List.filter_congr hp)

theorem filter_isSet_eq (h : d.Mirrored φ e S d') (p : Bool → Bool) :
    d'.list.filter (fun l => p (d'.board.get l).isSet) = (d.list.filter fun l => p (d.board.get l).isSet).map φ := by
  rw [h.list, filter_map_eq fun l hl => ?_]
  rw [h.board.cell l (h.live l hl), Instruction.isSet_mirror]

theorem sets_eq (h : d.Mirrored φ e S d') : d'.sets = d.sets.map φ := h.filter_isSet_eq id

/-! ### Merging SETs -/

section Groups

variable (h : b.Mirrored φ e S b') {sets : List Label} (hsets : ∀ l ∈ sets, l ∈ S ∧ (b.get l).isSet = true)

include h hsets

theorem key_eq {l : Label} (hl : l ∈ sets) :
    (b'.get (φ l)).time = (b.get l).time ∧ (b'.get (φ l)).block = (b.get l).block := by
  rw [h.cell_of_isSet (hsets l hl).1 (hsets l hl).2]
  exact ⟨rfl, rfl⟩

theorem hostAt_eq (time : Int) : hostAt b' (sets.map φ) time = hostAt b sets time := by
  unfold hostAt
  induction sets with
  | nil => rfl
  | cons l ls ih =>
    obtain ⟨htime, hblock⟩ := key_eq h hsets List.mem_cons_self
    rw [List.map_cons, List.findSome?_cons, List.findSome?_cons, htime, hblock,
      ih fun m hm => hsets m (List.mem_cons_of_mem _ hm)]

theorem groups_eq : groups b' (sets.map φ) = groups b sets := by
  unfold groups
  simp only
  have hkey := fun {l} => key_eq h hsets (l := l)
  rw [filter_map_eq (p := fun l => (b.get l).block.isSome) fun l hl => by rw [(hkey hl).2],
    filter_map_eq (p := fun l => (b.get l).block.isNone && (hostAt b sets (b.get l).time).isNone) fun l hl => by
      rw [(hkey hl).1, (hkey hl).2, hostAt_eq h hsets], List.map_map, List.map_map]
  congr 2
  · refine List.map_congr_left fun l hl => ?_
    obtain ⟨htime, hblock⟩ := hkey (List.mem_of_mem_filter hl)
    rw [Function.comp_apply, htime, hblock]
  · refine List.map_congr_left fun l hl => ?_
    rw [Function.comp_apply, (hkey (List.mem_of_mem_filter hl)).1]

theorem members_eq (g : Group) : members b' (sets.map φ) g = (members b sets g).map φ := by
  unfold members
  simp only
  have hkey := fun {l} => key_eq h hsets (l := l)
  rw [hostAt_eq h hsets, filter_map_eq (p := fun l => (b.get l).time == g.time) fun l hl => by rw [(hkey hl).1]]
  rw [filter_map_eq (p := fun l => (b.get l).block == g.block) fun l hl => by rw [(hkey (List.mem_of_mem_filter hl)).2],
    filter_map_eq (p := fun l => (b.get l).block.isNone) fun l hl => by rw [(hkey (List.mem_of_mem_filter hl)).2]]
  split
  · rw [List.map_append]
  · rfl

end Groups

theorem gathered_eq (h : d.Mirrored φ e S d') : d'.gathered = d.gathered.map (List.map φ) := by
  have hsets : ∀ l ∈ d.sets, l ∈ S ∧ (d.board.get l).isSet = true := fun l hl =>
    ⟨h.live l (mem_sets.1 hl).1, (mem_sets.1 hl).2⟩
  rw [gathered, gathered, h.sets_eq, groups_eq h.board hsets, List.map_map]
  exact List.map_congr_left fun g _ => members_eq h.board hsets g

theorem foldlM_uniteGroup {m : Int} {gs : List (List Label)} : ∀ {us us₁ : List Label} {b b' b₁ : Board},
    b.Mirrored φ e S b' → Mergeable b ls gs → (∀ g ∈ gs, ∀ l ∈ g, l ∈ S) → (∀ u ∈ us, u ∈ S) →
    (gs.foldlM (uniteGroup m) (us, b)).outcome = .ok (us₁, b₁) →
    ∃ b₁', ((gs.map (List.map φ)).foldlM (uniteGroup m) (us.map φ, b')).outcome = .ok (us₁.map φ, b₁') ∧
      b₁.Mirrored φ e S b₁' ∧ ∀ u ∈ us₁, u ∈ S := by
  induction gs with
  | nil =>
    intro us us₁ b b' b₁ h _ _ hus hok
    cases hok
    exact ⟨b', rfl, h, hus⟩
  | cons g gs ih =>
    intro us us₁ b b' b₁ h hm hgs hus hok
    obtain ⟨⟨us₂, b₂⟩, hstep, hrest⟩ := Attempt.foldlM_cons_eq_ok.1 hok
    have hg := hgs g List.mem_cons_self
    have hgs' := fun g' hg' => hgs g' (List.mem_cons_of_mem _ hg')
    have hsets : ∀ l ∈ g, l ∈ S ∧ (b.get l).isSet = true := fun l hl =>
      ⟨hg l hl, (hm.sets g List.mem_cons_self l hl).2.1⟩
    by_cases hone : ∃ l, g = [l]
    · obtain ⟨l, rfl⟩ := hone
      cases hstep
      have hus₂ : ∀ u ∈ us ++ [l], u ∈ S := fun u hu => by
        rcases List.mem_append.1 hu with hu | hu
        · exact hus u hu
        · exact hg u hu
      obtain ⟨b₁', hok', h', hlive⟩ := ih h hm.tail hgs' hus₂ hrest
      refine ⟨b₁', Attempt.foldlM_cons_eq_ok.2 ⟨_, rfl, ?_⟩, h', hlive⟩
      rwa [List.map_append] at hok'
    · obtain ⟨u, hu₂, ⟨hg', -⟩ | hunite⟩ := uniteGroup_eq_ok hstep
      · exact absurd ⟨u, hg'⟩ hone
      simp only at hu₂ hunite
      have hin : ∀ l ∈ g, (b.get l).drive.Inside := fun l hl => (hm.sets g List.mem_cons_self l hl).2.2
      obtain ⟨rfl, b₂', hunite', h₂⟩ := h.unite hsets hunite
      have hus₂ : ∀ u ∈ us₂, u ∈ S := fun u hu => by
        rw [hu₂] at hu
        rcases List.mem_append.1 hu with hu | hu
        · exact hus u hu
        · rw [List.mem_singleton.1 hu]
          exact h.size_mem.1
      obtain ⟨b₁', hok', h', hlive⟩ := ih h₂ (hm.of_unites (Board.unites_of_unite hin hunite)) hgs' hus₂ hrest
      refine ⟨b₁', Attempt.foldlM_cons_eq_ok.2 ⟨(us₂.map φ, b₂'), ?_, hok'⟩, h', hlive⟩
      rw [uniteGroup_of_ne fun l hl => hone ?_]
      · refine Attempt.bind_eq_ok.2 ⟨_, hunite', ?_⟩
        rw [hu₂, List.map_append]
        rfl
      · obtain ⟨x, rfl, -⟩ := List.map_eq_singleton_iff.1 hl
        exact ⟨x, rfl⟩

/-- SETs are merged in the same way. -/
theorem mergeSets (h : d.Mirrored φ e S d') (hd : d.Linked) (hin : d.SetsInside) (hc : d.board.Closes z e₀ d.list)
    (he : e₀ ≤ e) {m : Int} (hm : (d.mergeSets m).outcome = .ok d₁) :
    ∃ d₁', (d'.mergeSets m).outcome = .ok d₁' ∧ d₁.Mirrored φ e S d₁' := by
  obtain ⟨us', hmerged⟩ := hd.merged hin hm
  have hc₁ := closes_of_merged hc hmerged hd hin
  obtain ⟨⟨us, b₁⟩, hfold, hd₁⟩ := Attempt.bind_eq_ok.1 hm
  cases hd₁
  have hmergeable := hd.mergeable hin
  have hnone : ∀ u ∈ ([] : List Label), u ∈ S := by simp
  obtain ⟨b₁', hfold', hb, hus⟩ := foldlM_uniteGroup h.board hmergeable
    (fun g hg l hl => h.live l (hmergeable.sets g hg l hl).1) hnone hfold
  have hothers := h.filter_isSet_eq not
  have hlive : ∀ l ∈ (d.list.filter fun l => !(d.board.get l).isSet) ++ us, l ∈ S := fun l hl => by
    rcases List.mem_append.1 hl with hl | hl
    · exact h.live l (List.mem_of_mem_filter hl)
    · exact hus l hl
  refine ⟨_, Attempt.bind_eq_ok.2 ⟨(us.map φ, b₁'), ?_, rfl⟩, hb, ?_, fun l hl => hlive l (mem_sorted.1 hl)⟩
  · rw [← hfold', ← h.gathered_eq]
    rfl
  · change sorted b₁' ((d'.list.filter fun l => !(d'.board.get l).isSet) ++ us.map φ) = _
    rw [hothers, ← List.map_append]
    exact sorted_eq hb hlive (hc₁.of_redriven (.refl _) (perm_sorted _ _).symm) he

/-! ### Running state -/

theorem inheritFrom_mirrored {mask : Int} : ∀ {p : Label} {b b' : Board}, b.Mirrored φ e S b' → p ∈ S →
    (∀ l ∈ ls, l ∈ S ∧ (b.get l).isSet = true) →
    (inheritFrom mask p b ls).Mirrored φ e S (inheritFrom mask (φ p) b' (ls.map φ)) := by
  induction ls with
  | nil => exact fun h _ _ => h
  | cons l ls ih =>
    intro p b b' h hp hls
    obtain ⟨hl, hset⟩ := hls l List.mem_cons_self
    refine ih (h.modify hl ?_ (h.closed l hl)) hl fun m hm => ⟨(hls m (List.mem_cons_of_mem _ hm)).1, ?_⟩
    · rw [h.cell p hp, Instruction.drive_mirror, Instruction.drive_mirror, Instruction.mirror_of_isSet hset,
        Instruction.mirror_of_isSet (Instruction.isSet_withDrive _ _)]
      rfl
    · rw [Board.inherit, Board.get_modify]
      split
      · rfl
      · exact (hls m (List.mem_cons_of_mem _ hm)).2

/-- The running state is the same. -/
theorem inheritOutputs (h : d.Mirrored φ e S d') (hc : d.board.Closes z e₀ d.list) (he : e₀ ≤ e) {mask : Int}
    (hi : d.inheritOutputs mask = .ok d₁) :
    ∃ d₁', d'.inheritOutputs mask = .ok d₁' ∧ d₁.Mirrored φ e S d₁' := by
  have hsort := h.sort hc he
  have hsets := hsort.sets_eq
  have hlive : ∀ l ∈ d.sort.sets, l ∈ S ∧ (d.board.get l).isSet = true := fun l hl =>
    ⟨hsort.live l (mem_sets.1 hl).1, (mem_sets.1 hl).2⟩
  unfold Draft.inheritOutputs at hi ⊢
  simp only at hi ⊢
  cases hfirst : d.sort.sets with
  | nil =>
    rw [hfirst] at hi
    cases hi
    rw [hsets, hfirst]
    exact ⟨_, rfl, hsort⟩
  | cons first rest =>
    rw [hfirst] at hi hsets hlive
    obtain ⟨hl, hset⟩ := hlive first List.mem_cons_self
    have htime : d'.sort.board.time (φ first) = d.sort.board.time first := by
      rw [Board.time, hsort.board.cell first hl]
      exact Instruction.time_mirror (Instruction.ne_stop_of_isSet hset)
    simp only at hi
    split at hi
    · cases hi
    · rename_i hzero
      cases hi
      rw [hsets, List.map_cons]
      simp only [htime]
      rw [if_neg hzero]
      exact ⟨_, rfl, inheritFrom_mirrored hsort.board hl fun l hl => hlive l (List.mem_cons_of_mem _ hl), hsort.list,
        hsort.live⟩

/-! ### Gaps -/

/-- A filler has no labels, so both boards get the same one. -/
theorem mirrored_addFiller {last gap : Int} {held : Option Label} {i : Option Instruction} (h : b.Mirrored φ e S b')
    (hheld : ∀ g ∈ held, g ∈ S) (hi : Filler b last gap held i) :
    Filler b' last gap (held.map φ) i ∧ (addFiller b i).2.Mirrored φ e S (addFiller b' i).2 ∧
      (addFiller b' i).1 = (addFiller b i).1.map φ ∧ ∀ l ∈ (addFiller b i).1, l ∈ S := by
  obtain ⟨hmem, hsize⟩ := h.size_mem
  cases hi with
  | none hgap => exact ⟨.none hgap, h, rfl, by simp [addFiller]⟩
  | @hold g hgap hg hin =>
    subst hg
    have hdrive : (b'.get (φ g)).drive = (b.get g).drive := by
      rw [h.cell g (hheld g rfl), Instruction.drive_mirror]
    refine ⟨?_, h.add (by simp), by simp [addFiller, hsize], by simpa [addFiller] using hmem⟩
    rw [← hdrive] at hin ⊢
    exact .hold hgap rfl hin
  | wait hgap => exact ⟨.wait hgap, h.add (by simp), by simp [addFiller, hsize], by simpa [addFiller] using hmem⟩

/-- Gaps are filled in the same way as long as the times are the same. -/
theorem fillFrom_mirrored : ∀ {last : Int} {held : Option Label} {b b' b₁ : Board} {filled : List Label},
    b.Mirrored φ e S b' → (∀ l ∈ ls, l ∈ S ∧ l < b.size ∧ ((b.get l).mirror φ e).time = b.time l) →
    (∀ h ∈ held, h ∈ S) → fillFrom last held b ls = .ok (filled, b₁) →
    ∃ b₁', fillFrom last (held.map φ) b' (ls.map φ) = .ok (filled.map φ, b₁') ∧ b₁.Mirrored φ e S b₁' ∧
      ∀ l ∈ filled, l ∈ S := by
  induction ls with
  | nil =>
    intro last held b b' b₁ filled h _ _ hok
    cases hok
    exact ⟨b', rfl, h, by simp⟩
  | cons l ls ih =>
    intro last held b b' b₁ filled h hls hheld hok
    obtain ⟨hl, -, htime⟩ := hls l List.mem_cons_self
    have htime' : b'.time (φ l) = b.time l := by rw [Board.time, h.cell l hl, htime]
    have hnext : heldAfter b' (held.map φ) (φ l) = (heldAfter b held l).map φ := by
      rw [heldAfter, heldAfter, h.cell l hl, Instruction.isSet_mirror]
      split <;> rfl
    have hheld' : ∀ g ∈ heldAfter b held l, g ∈ S := by
      unfold heldAfter
      split
      · simpa using hl
      · exact hheld
    obtain ⟨i, rest, hi, hfill, rfl⟩ := fillFrom_cons_eq_ok.1 hok
    obtain ⟨hi', hadded, hnew, hlive⟩ := mirrored_addFiller h hheld hi
    have hls' : ∀ m ∈ ls, m ∈ S ∧ m < (addFiller b i).2.size ∧
        (((addFiller b i).2.get m).mirror φ e).time = (addFiller b i).2.time m := fun m hm => by
      obtain ⟨hm, hlt, hmtime⟩ := hls m (List.mem_cons_of_mem _ hm)
      have hext := extends_addFiller b i
      rw [Board.time, hext.get_eq m hlt]
      exact ⟨hm, lt_of_lt_of_le hlt hext.size_le, hmtime⟩
    obtain ⟨b₁', hfill', h₁, hrest⟩ := ih hadded hls' hheld' hfill
    refine ⟨b₁', fillFrom_cons_eq_ok.2 ⟨i, rest.map φ, ?_, ?_, ?_⟩, h₁, ?_⟩
    · rwa [htime']
    · rwa [htime', hnext]
    · rw [hnew, List.map_append, List.map_cons]
    · exact List.forall_mem_append.2 ⟨hlive, List.forall_mem_cons.2 ⟨hl, hrest⟩⟩

end Mirrored

end Draft

end PulseSequencer
