import PulseSequencer.Proofs.Bits
import PulseSequencer.Schedule.Instruction

/-!
# What is on a board

One lookup rule for each way to change a board, so that no later proof opens the array behind it.

* `Board.size`, `Board.get_add`, `Board.get_modify`, `Board.get_foldl_modify` : lookups after a change;
* `Instruction.target?`, `Instruction.retarget` : where a jump goes, and the same jump sent elsewhere;
* `Board.addSet_eq_ok`, `Board.addJump_eq` : what a new instruction looks like.
-/

namespace PulseSequencer

namespace Instruction

/-- The target of a jump; nothing else has one. -/
def target? (i : Instruction) : Option Label :=
  match i.action with
  | .jump _ _ _ g => some g
  | _ => none

/-- The same instruction, a jump going to the image of its target. -/
def retarget (f : Label → Label) (i : Instruction) : Instruction :=
  match i.action with
  | .jump always channel threshold g => { i with action := .jump always channel threshold (f g) }
  | _ => i

@[simp] theorem time_withDrive (i : Instruction) (d : Drive) : (i.withDrive d).time = i.time := rfl

@[simp] theorem block_withDrive (i : Instruction) (d : Drive) : (i.withDrive d).block = i.block := rfl

@[simp] theorem drive_withDrive (i : Instruction) (d : Drive) : (i.withDrive d).drive = d := rfl

@[simp] theorem isSet_withDrive (i : Instruction) (d : Drive) : (i.withDrive d).isSet = true := rfl

theorem isSet_iff {i : Instruction} : i.isSet = true ↔ ∃ d, i.action = .set d := by
  unfold isSet
  cases h : i.action <;> simp

theorem action_eq_of_isSet {i : Instruction} (h : i.isSet = true) : i.action = .set i.drive := by
  obtain ⟨d, hd⟩ := isSet_iff.1 h
  rw [drive, hd]

theorem withDrive_drive {i : Instruction} (h : i.isSet = true) : i.withDrive i.drive = i := by
  rw [withDrive, ← action_eq_of_isSet h]

theorem opcode_of_isSet {i : Instruction} (h : i.isSet = true) : i.opcode = 2 := by
  rw [opcode, action_eq_of_isSet h]
  rfl

theorem isSet_eq_of_opcode {i j : Instruction} (h : i.opcode = j.opcode) : i.isSet = j.isSet := by
  have hiff : ∀ i : Instruction, i.isSet = (i.opcode == 2) := by
    rintro ⟨time, block, address, reachedBy, action⟩
    cases action <;> rfl
  rw [hiff, hiff, h]

theorem target?_of_isSet {i : Instruction} (h : i.isSet = true) : i.target? = none := by
  rw [target?, action_eq_of_isSet h]

theorem retarget_of_target?_eq_none {f : Label → Label} {i : Instruction} (h : i.target? = none) :
    i.retarget f = i := by
  unfold target? at h
  unfold retarget
  split
  · rename_i h'
    rw [h'] at h
    cases h
  · rfl

theorem retarget_congr {f g : Label → Label} {i : Instruction} (h : ∀ l, i.target? = some l → f l = g l) :
    i.retarget f = i.retarget g := by
  unfold target? at h
  unfold retarget
  split
  · rename_i h'
    rw [h'] at h
    rw [h _ rfl]
  · rfl

@[simp] theorem retarget_id (i : Instruction) : i.retarget id = i := by
  unfold retarget
  split
  · rename_i h
    obtain ⟨_, _, _, _, _⟩ := i
    simp_all
  · rfl

@[simp] theorem time_retarget (f : Label → Label) (i : Instruction) : (i.retarget f).time = i.time := by
  unfold retarget; split <;> rfl

@[simp] theorem block_retarget (f : Label → Label) (i : Instruction) : (i.retarget f).block = i.block := by
  unfold retarget; split <;> rfl

@[simp] theorem reachedBy_retarget (f : Label → Label) (i : Instruction) : (i.retarget f).reachedBy = i.reachedBy := by
  unfold retarget; split <;> rfl

@[simp] theorem isSet_retarget (f : Label → Label) (i : Instruction) : (i.retarget f).isSet = i.isSet := by
  unfold retarget
  split
  · rename_i h
    rw [isSet, isSet, h]
  · rfl

@[simp] theorem opcode_retarget (f : Label → Label) (i : Instruction) : (i.retarget f).opcode = i.opcode := by
  unfold retarget
  split
  · rename_i h
    rw [opcode, opcode, h]
    rfl
  · rfl

@[simp] theorem target?_retarget (f : Label → Label) (i : Instruction) : (i.retarget f).target? = i.target?.map f := by
  unfold retarget target?
  cases h : i.action <;> simp [h]

theorem retarget_retarget (f g : Label → Label) (i : Instruction) : (i.retarget f).retarget g = i.retarget (g ∘ f) := by
  unfold retarget
  cases h : i.action <;> simp [h]

/-- Earlier instructions come first; a tie goes by opcode. -/
theorem before_iff {a b : Instruction} :
    a.before b = true ↔ a.time < b.time ∨ (a.time = b.time ∧ a.opcode ≤ b.opcode) := by
  simp [before]

theorem before_total (a b : Instruction) : a.before b = true ∨ b.before a = true := by
  rw [before_iff, before_iff]
  omega

theorem before_trans {a b c : Instruction} (h1 : a.before b = true) (h2 : b.before c = true) : a.before c = true := by
  rw [before_iff] at *
  omega

theorem eq_of_before {a b : Instruction} (h : a.before b = true) (h' : b.before a = true) :
    a.time = b.time ∧ a.opcode = b.opcode := by
  rw [before_iff] at h h'
  omega

end Instruction

namespace Board

theorem redirect_eq_retarget (g : Label) (i : Instruction) : redirect g i = i.retarget fun _ => g := by
  unfold redirect Instruction.retarget
  rfl

/-! ## Lookups -/

/-- How many instructions have a label. -/
def size (b : Board) : Nat := b.cells.size

theorem get_eq (b : Board) (l : Label) : b.get l = (b.cells[l]?).getD default := by
  rw [get, Array.getD_eq_getD_getElem?]

theorem time_eq (b : Board) (l : Label) : b.time l = (b.get l).time := rfl

theorem get_of_size_le {b : Board} {l : Label} (h : b.size ≤ l) : b.get l = default := by
  rw [get_eq, Array.getElem?_eq_none h]
  rfl

/-- Every label past the end stands for an instruction that is no SET. -/
theorem lt_size_of_isSet {b : Board} {l : Label} (h : (b.get l).isSet = true) : l < b.size := by
  by_contra hl
  rw [get_of_size_le (Nat.not_lt.1 hl)] at h
  cases h

theorem lt_size_of_target? {b : Board} {l g : Label} (h : (b.get l).target? = some g) : l < b.size := by
  by_contra hl
  rw [get_of_size_le (Nat.not_lt.1 hl)] at h
  cases h

theorem ext_get {b b' : Board} (hs : b.size = b'.size) (h : ∀ l, b.get l = b'.get l) : b = b' := by
  obtain ⟨cells⟩ := b
  obtain ⟨cells'⟩ := b'
  congr 1
  refine Array.ext hs fun i hi hi' => ?_
  have := h i
  rw [get_eq, get_eq, Array.getElem?_eq_getElem hi, Array.getElem?_eq_getElem hi'] at this
  exact this

@[simp] theorem size_add (b : Board) (i : Instruction) : (b.add i).2.size = b.size + 1 := by simp [add, size]

@[simp] theorem fst_add (b : Board) (i : Instruction) : (b.add i).1 = b.size := rfl

theorem get_add (b : Board) (i : Instruction) (l : Label) :
    (b.add i).2.get l = if l = b.size then i else b.get l := by
  rw [get_eq, get_eq, add, Array.getElem?_push]
  by_cases h : l = b.size
  · rw [if_pos h, if_pos (show l = b.cells.size from h)]
    rfl
  · rw [if_neg h, if_neg (show ¬ l = b.cells.size from h)]

@[simp] theorem get_add_size (b : Board) (i : Instruction) : (b.add i).2.get b.size = i := by
  rw [get_add, if_pos rfl]

theorem get_add_of_lt {b : Board} {l : Label} (i : Instruction) (h : l < b.size) : (b.add i).2.get l = b.get l := by
  rw [get_add, if_neg h.ne]

@[simp] theorem size_modify (b : Board) (l : Label) (f : Instruction → Instruction) :
    (b.modify l f).size = b.size := by simp [modify, size]

theorem get_modify (b : Board) (l : Label) (f : Instruction → Instruction) (m : Label) :
    (b.modify l f).get m = if m = l ∧ l < b.size then f (b.get m) else b.get m := by
  rw [get_eq, get_eq]
  simp only [modify, Array.getElem?_modify]
  by_cases hml : m = l
  · subst hml
    by_cases hm : m < b.size
    · rw [Array.getElem?_eq_getElem hm]
      simp [hm]
    · rw [Array.getElem?_eq_none (Nat.not_lt.1 hm)]
      simp [hm]
  · rw [if_neg (fun h => hml h.symm), if_neg (fun h => hml h.1)]

theorem get_modify_self {b : Board} {l : Label} (f : Instruction → Instruction) (h : l < b.size) :
    (b.modify l f).get l = f (b.get l) := by rw [get_modify, if_pos ⟨rfl, h⟩]

theorem get_modify_of_ne {b : Board} {l m : Label} (f : Instruction → Instruction) (h : m ≠ l) :
    (b.modify l f).get m = b.get m := by rw [get_modify, if_neg fun h' => h h'.1]

theorem modify_add (b : Board) (i : Instruction) (f : Instruction → Instruction) :
    (b.add i).2.modify b.size f = (b.add (f i)).2 := by
  refine ext_get (by simp) fun l => ?_
  rw [get_modify, get_add, get_add, size_add]
  by_cases hl : l = b.size
  · simp [hl]
  · simp [hl]

theorem modify_eq_self {b : Board} {l : Label} {f : Instruction → Instruction} (h : f (b.get l) = b.get l) :
    b.modify l f = b := by
  refine ext_get (size_modify b l f) fun m => ?_
  rw [get_modify]
  split
  · rename_i h'
    rw [h'.1, h]
  · rfl

@[simp] theorem size_foldl_modify (f : Instruction → Instruction) (ls : List Label) (b : Board) :
    (ls.foldl (fun b l => b.modify l f) b).size = b.size := by
  induction ls generalizing b with
  | nil => rfl
  | cons l ls ih => rw [List.foldl_cons, ih, size_modify]

/-- Changing several instructions in the same way, each once or in a way that a second time changes nothing. -/
theorem get_foldl_modify {f : Instruction → Instruction} {ls : List Label} (h : ls.Nodup ∨ ∀ i, f (f i) = f i)
    (b : Board) (m : Label) :
    (ls.foldl (fun b l => b.modify l f) b).get m = if m ∈ ls ∧ m < b.size then f (b.get m) else b.get m := by
  induction ls generalizing b with
  | nil => simp
  | cons l ls ih =>
    have hls : ls.Nodup ∨ ∀ i, f (f i) = f i := h.imp_left fun h => h.of_cons
    rw [List.foldl_cons, ih hls, size_modify, get_modify]
    by_cases hm : m < b.size
    · by_cases hml : m = l
      · subst hml
        simp only [hm, and_self, if_true, and_true, List.mem_cons, true_or]
        split
        · rename_i hmem
          rcases h with h | h
          · exact absurd hmem (List.nodup_cons.1 h).1
          · exact h _
        · rfl
      · simp [hml, hm]
    · have : ¬ (m = l ∧ l < b.size) := fun h' => hm (h'.1 ▸ h'.2)
      simp [hm, this]

/-! ## Boards that grow -/

/-- A board with all of another one on it, unchanged, and possibly more. -/
structure Extends (b b' : Board) : Prop where
  size_le : b.size ≤ b'.size
  get_eq : ∀ l, l < b.size → b'.get l = b.get l

namespace Extends

theorem refl (b : Board) : b.Extends b := ⟨le_refl _, fun _ _ => rfl⟩

theorem trans {a b c : Board} (h : a.Extends b) (h' : b.Extends c) : a.Extends c :=
  ⟨h.size_le.trans h'.size_le, fun l hl => (h'.get_eq l (lt_of_lt_of_le hl h.size_le)).trans (h.get_eq l hl)⟩

theorem add (b : Board) (i : Instruction) : b.Extends (b.add i).2 :=
  ⟨by simp, fun _ hl => get_add_of_lt i hl⟩

end Extends

/-! ## New instructions -/

@[simp] theorem time_setTime_self (b : Board) (l : Label) : b.setTime l (b.time l) = b := modify_eq_self rfl

theorem addSet_eq_ok {b : Board} {time value mask : Int} {block : Option String} {marker : Bool} {r : Label × Board} :
    b.addSet time value mask block marker = .ok r ↔
      Bits.without value mask = 0 ∧ r = b.add ⟨time, block, none, [], .set ⟨value, mask, 0, marker⟩⟩ := by
  unfold addSet
  split
  · rename_i h
    simp only [Except.ok.injEq, h, true_and]
    exact eq_comm
  · rename_i h
    simp [h]

/-- A new jump stands at the end of the board, and its target lists it. -/
theorem get_addJump (b : Board) (time : Int) (g : Label) (always : Bool) (channel threshold : Binary64)
    (block : Option String) (hg : g < b.size) (l : Label) :
    (b.addJump time g always channel threshold block).2.get l =
      if l = b.size then
        ⟨time, block, none, [], .jump always (if always then 0 else channel) (if always then 0 else threshold) g⟩
      else if l = g then { b.get g with reachedBy := (b.get g).reachedBy ++ [b.size] } else b.get l := by
  unfold addJump
  simp only [fst_add]
  rw [get_modify, get_add, size_add]
  by_cases h1 : l = b.size
  · rw [if_pos h1, if_pos h1, if_neg fun h => hg.ne (h.1.symm.trans h1)]
  · by_cases h2 : l = g
    · rw [if_neg h1, if_neg h1, if_pos h2, if_pos ⟨h2, Nat.lt_succ_of_lt hg⟩, h2]
    · rw [if_neg h1, if_neg h1, if_neg h2, if_neg fun h => h2 h.1]

@[simp] theorem fst_addJump (b : Board) (time : Int) (g : Label) (always : Bool) (channel threshold : Binary64)
    (block : Option String) : (b.addJump time g always channel threshold block).1 = b.size := rfl

@[simp] theorem size_addJump (b : Board) (time : Int) (g : Label) (always : Bool) (channel threshold : Binary64)
    (block : Option String) : (b.addJump time g always channel threshold block).2.size = b.size + 1 := by
  unfold addJump
  simp

end Board

end PulseSequencer
