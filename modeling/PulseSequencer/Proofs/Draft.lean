import PulseSequencer.Proofs.Board
import PulseSequencer.Proofs.Sort
import PulseSequencer.Schedule.Draft

/-!
# Sorted drafts

* `Draft.mem_sets` : the SETs of a draft;
* `Draft.perm_sorted`, `Draft.pairwise_sorted`, `Draft.sorted_of_increasing` : labels in order of their instructions.
-/

namespace PulseSequencer.Draft

theorem mem_sets {d : Draft} {l : Label} : l ∈ d.sets ↔ l ∈ d.list ∧ (d.board.get l).isSet = true := List.mem_filter

variable {b : Board} {ls : List Label}

theorem perm_sorted (b : Board) (ls : List Label) : (sorted b ls).Perm ls := Sort.perm_sortBy _ _

@[simp] theorem mem_sorted {l : Label} : l ∈ sorted b ls ↔ l ∈ ls := Sort.mem_sortBy

theorem pairwise_sorted (b : Board) (ls : List Label) :
    (sorted b ls).Pairwise fun x y => (b.get x).before (b.get y) = true :=
  Sort.pairwise_sortBy (fun x y => Instruction.before_total (b.get x) (b.get y))
    (fun _ _ _ => Instruction.before_trans) ls

theorem pairwise_time_sorted (b : Board) (ls : List Label) :
    (sorted b ls).Pairwise fun x y => b.time x ≤ b.time y := by
  refine (pairwise_sorted b ls).imp fun h => ?_
  rcases Instruction.before_iff.1 h with h | h
  · exact h.le
  · exact h.1.le

theorem sorted_of_increasing (h : ls.Pairwise fun x y => b.time x < b.time y) : sorted b ls = ls :=
  Sort.sortBy_of_pairwise (h.imp fun hlt => Instruction.before_iff.2 (.inl hlt))

@[simp] theorem sorted_sorted (b : Board) (ls : List Label) : sorted b (sorted b ls) = sorted b ls :=
  Sort.sortBy_of_pairwise (pairwise_sorted b ls)

@[simp] theorem list_sort (d : Draft) : d.sort.list = sorted d.board d.list := rfl

@[simp] theorem board_sort (d : Draft) : d.sort.board = d.board := rfl

end PulseSequencer.Draft
