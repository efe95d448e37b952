/-!
# Stable sorting

* `Sort.sortBy` : the list sorted by insertion; elements that are equal in the order keep their order.
-/

namespace PulseSequencer.Sort

variable {α : Type}

/-- Puts an element in front of the first one that is not before it. -/
def insertBy (le : α → α → Bool) (x : α) : List α → List α
  | [] => [x]
  | y :: ys => if le x y then x :: y :: ys else y :: insertBy le x ys

def sortBy (le : α → α → Bool) : List α → List α
  | [] => []
  | x :: xs => insertBy le x (sortBy le xs)

end PulseSequencer.Sort
