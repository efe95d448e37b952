import PulseSequencer.Proofs.Draft

/-!
# Jumps and their targets

* `Draft.Linked` : jumps and their targets know each other;
* `Board.Redriven`, `Board.Retimed` : boards that differ in the drives of SETs, or in ticks, only;
* `Draft.Linked.of_sameLinks` : neither difference breaks a link.
-/

namespace PulseSequencer

namespace Board

/-- The boards have the same jumps and targets. -/
structure SameLinks (b b' : Board) : Prop where
  size_eq : b'.size = b.size
  isSet : ∀ l, (b'.get l).isSet = (b.get l).isSet
  stop : ∀ l, (b.get l).action = .stop → (b'.get l).action = .stop
  target : ∀ l, (b'.get l).target? = (b.get l).target?
  reachedBy : ∀ l, (b'.get l).reachedBy = (b.get l).reachedBy

/-- The boards differ in the drives of SETs only. -/
structure Redriven (b b' : Board) : Prop where
  size_eq : b'.size = b.size
  get : ∀ l, b'.get l = b.get l ∨ ((b.get l).isSet = true ∧ ∃ e, b'.get l = (b.get l).withDrive e)

/-- The boards differ in ticks only. -/
structure Retimed (b b' : Board) : Prop where
  size_eq : b'.size = b.size
  get : ∀ l, b'.get l = { b.get l with time := b'.time l }

namespace Redriven

variable {b b' : Board}

theorem refl (b : Board) : b.Redriven b := ⟨rfl, fun _ => .inl rfl⟩

theorem time_eq (h : b.Redriven b') (l : Label) : b'.time l = b.time l := by
  rcases h.get l with h | ⟨-, e, h⟩ <;> rw [Board.time, Board.time, h]
  rfl

theorem block_eq (h : b.Redriven b') (l : Label) : (b'.get l).block = (b.get l).block := by
  rcases h.get l with h | ⟨-, e, h⟩ <;> rw [h]
  rfl

theorem get_of_not_isSet (h : b.Redriven b') {l : Label} (hl : (b.get l).isSet = false) : b'.get l = b.get l := by
  rcases h.get l with h | ⟨hset, -⟩
  · exact h
  · rw [hset] at hl
    cases hl

theorem sameLinks (h : b.Redriven b') : b.SameLinks b' := by
  have hset : ∀ l, (b'.get l).isSet = (b.get l).isSet := fun l => by
    rcases h.get l with h | ⟨hset, e, h⟩ <;> rw [h]
    exact hset.symm
  refine ⟨h.size_eq, hset, fun l hl => ?_, fun l => ?_, fun l => ?_⟩
  · rwa [h.get_of_not_isSet (by rw [Instruction.isSet, hl])]
  · rcases h.get l with h | ⟨hset, e, h⟩ <;> rw [h]
    exact (Instruction.target?_of_isSet hset).symm
  · rcases h.get l with h | ⟨hset, e, h⟩ <;> rw [h]
    rfl

theorem opcode_eq (h : b.Redriven b') (l : Label) : (b'.get l).opcode = (b.get l).opcode := by
  rcases h.get l with h | ⟨hset, e, h⟩ <;> rw [h]
  exact (Instruction.opcode_of_isSet hset).symm

theorem sorted_eq (h : b.Redriven b') (ls : List Label) : Draft.sorted b' ls = Draft.sorted b ls := by
  unfold Draft.sorted
  refine congrArg (fun le => Sort.sortBy le ls) (funext fun x => funext fun y => ?_)
  have htime : ∀ l, (b'.get l).time = (b.get l).time := h.time_eq
  simp only [Instruction.before, htime, h.opcode_eq]

end Redriven

namespace Retimed

variable {b b' b'' : Board}

theorem refl (b : Board) : b.Retimed b := ⟨rfl, fun _ => rfl⟩

theorem trans (h : b.Retimed b') (h' : b'.Retimed b'') : b.Retimed b'' :=
  ⟨h'.size_eq.trans h.size_eq, fun l => by rw [h'.get l, h.get l]⟩

theorem modify_time (b : Board) (l : Label) (f : Instruction → Int) :
    b.Retimed (b.modify l fun i => { i with time := f i }) := by
  refine ⟨size_modify _ _ _, fun m => ?_⟩
  rw [Board.time, get_modify]
  split <;> rfl

theorem setTime (b : Board) (l : Label) (time : Int) : b.Retimed (b.setTime l time) := modify_time b l fun _ => time

theorem action_eq (h : b.Retimed b') (l : Label) : (b'.get l).action = (b.get l).action := by rw [h.get l]

theorem block_eq (h : b.Retimed b') (l : Label) : (b'.get l).block = (b.get l).block := by rw [h.get l]

theorem isSet_eq (h : b.Retimed b') (l : Label) : (b'.get l).isSet = (b.get l).isSet := by
  rw [Instruction.isSet, Instruction.isSet, h.action_eq]

theorem drive_eq (h : b.Retimed b') (l : Label) : (b'.get l).drive = (b.get l).drive := by
  rw [Instruction.drive, Instruction.drive, h.action_eq]

theorem sameLinks (h : b.Retimed b') : b.SameLinks b' :=
  ⟨h.size_eq, h.isSet_eq, fun l hl => by rwa [h.action_eq],
    fun l => by rw [Instruction.target?, Instruction.target?, h.action_eq], fun l => by rw [h.get l]⟩

end Retimed

end Board

namespace Draft

/-- All instructions are on the board. A jump goes to a SET or END of the list, which knows of it, and an instruction
knows of no other jumps. -/
structure Linked (d : Draft) : Prop where
  valid : ∀ l ∈ d.list, l < d.board.size
  nodup : d.list.Nodup
  target : ∀ l ∈ d.list, ∀ g, (d.board.get l).target? = some g →
    g ∈ d.list ∧ ((d.board.get g).isSet = true ∨ (d.board.get g).action = .stop) ∧ l ∈ (d.board.get g).reachedBy
  reached : ∀ g ∈ d.list, ∀ l ∈ (d.board.get g).reachedBy, l ∈ d.list ∧ (d.board.get l).target? = some g

theorem Linked.of_sameLinks {d d' : Draft} (h : d.Linked) (hb : d.board.SameLinks d'.board)
    (hlist : d'.list.Perm d.list) : d'.Linked := by
  refine ⟨fun l hl => ?_, hlist.nodup_iff.2 h.nodup, fun l hl g hg => ?_, fun g hg l hl => ?_⟩
  · rw [hb.size_eq]
    exact h.valid l (hlist.mem_iff.1 hl)
  · rw [hb.target] at hg
    obtain ⟨hmem, hland, hreach⟩ := h.target l (hlist.mem_iff.1 hl) g hg
    exact ⟨hlist.mem_iff.2 hmem, hland.imp (fun hs => (hb.isSet g).trans hs) (hb.stop g), by rwa [hb.reachedBy]⟩
  · rw [hb.reachedBy] at hl
    obtain ⟨hmem, htarget⟩ := h.reached g (hlist.mem_iff.1 hg) l hl
    exact ⟨hlist.mem_iff.2 hmem, by rwa [hb.target]⟩

theorem Linked.sort {d : Draft} (h : d.Linked) : d.sort.Linked :=
  h.of_sameLinks (Board.Retimed.refl d.board).sameLinks (perm_sorted _ _)

end Draft

end PulseSequencer
