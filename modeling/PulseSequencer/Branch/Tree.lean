import PulseSequencer.Branch.Graph
import PulseSequencer.Text.Blank

/-!
# Reachability trees

The tree of all ways through the jumps of a variant. A jump that is on its own path already closes the branch as a loop,
and a path of more than a hundred jumps is cut off. A subtree without loops and cuts does not depend on the path that
leads to it, so it is built once and shared.

* `Tree` : the tree; a jump node has a serial number, and shared nodes have one number;
* `Tree.build` : the tree of a jump graph, with the number of nodes built;
* `Tree.leaves` : the leaves in branch order, shared subtrees visited once;
* `Tree.check` : every branch ends, and one of them at the end of the sequence.
-/

namespace PulseSequencer

inductive Leaf where
  | terminator
  | loop (jump : String)
  | aborted (jump : String)
deriving DecidableEq, Inhabited

inductive Tree where
  | leaf (l : Leaf)
  | jump (serial : Nat) (name : String) (branches : List (String × Tree))
deriving Inhabited

namespace Tree

/-- The longest path, in jumps. -/
def maxDepth : Nat := 100

def isJump : Tree → Bool
  | jump .. => true
  | leaf _ => false

/-! ## Construction -/

/-- A finished subtree. -/
structure Expansion where
  tree : Tree
  /-- Levels of jumps below the root. -/
  height : Nat
  /-- Whether the subtree is the same on every path. -/
  closed : Bool

structure Builder where
  count : Nat
  shared : List (String × Expansion)

def Builder.shared? (b : Builder) (name : String) : Option Expansion :=
  (b.shared.find? fun e => e.1 == name).map Prod.snd

/-- A new leaf. -/
def Builder.leaf (b : Builder) (l : Leaf) : Expansion × Builder :=
  (⟨.leaf l, 0, l == .terminator⟩, { b with count := b.count + 1 })

/-- Joins a finished branch to those before it. -/
def Expansion.join (label : String) (sub : Expansion) (branches : List (String × Tree)) (height : Nat)
    (closed : Bool) : List (String × Tree) × Nat × Bool :=
  (branches ++ [(label, sub.tree)], if sub.tree.isJump then max height (sub.height + 1) else height,
    closed && sub.closed)

/-- The subtree of a jump that is reached along `path`; `levels` more jumps fit on the path. -/
def expand (g : JumpGraph) : (levels : Nat) → (path : List String) → TimedJump → Builder →
    Except Fault (Expansion × Builder)
  | levels, path, j, b =>
    if path.contains j.name then .ok (b.leaf (.loop j.name))
    else
      match (b.shared? j.name).filter fun e => decide (e.height < levels) with
      | some e => .ok (e, b)
      | none =>
        match levels with
        | 0 => .ok (b.leaf (.aborted j.name))
        | levels + 1 => do
          let serial := b.count
          let branch := fun (acc : (List (String × Tree) × Nat × Bool) × Builder) (target : Target) => do
            let (done, b) := acc
            let (sub, b) ← match ← g.successor j target with
              | none => pure (b.leaf .terminator)
              | some k => expand g levels (j.name :: path) k b
            return (sub.join target.text done.1 done.2.1 done.2.2, b)
          let ((branches, height, closed), b) ←
            j.targets.foldlM branch (([], 0, true), { b with count := b.count + 1 })
          let e : Expansion := ⟨.jump serial j.name branches, height, closed⟩
          return (e, if closed then { b with shared := (j.name, e) :: b.shared } else b)

/-- The tree of a graph and the number of nodes built; shared subtrees count once. -/
def build (g : JumpGraph) : Except Fault (Tree × Nat) := do
  let start : Builder := ⟨0, []⟩
  let (e, b) ← match g.jumps with
    | [] => pure (start.leaf .terminator)
    | first :: _ => expand g maxDepth [] first start
  return (e.tree, b.count)

/-! ## Leaves -/

mutual

/-- Adds the leaves of a tree to `found`, last one first, and the serial numbers of its jump nodes to `seen`. -/
def collect : Tree → (seen : List Nat) → (found : List Leaf) → List Nat × List Leaf
  | leaf l, seen, found => (seen, l :: found)
  | jump serial _ branches, seen, found =>
    if seen.contains serial then (seen, found) else collectBranches branches (serial :: seen) found

def collectBranches : List (String × Tree) → (seen : List Nat) → (found : List Leaf) → List Nat × List Leaf
  | [], seen, found => (seen, found)
  | (_, tree) :: rest, seen, found =>
    let (seen, found) := collect tree seen found
    collectBranches rest seen found

end

def leaves (t : Tree) : List Leaf := (collect t [] []).2.reverse

/-! ## Text -/

def nodeText : Tree → String
  | jump _ name _ => s!"jump '{name}'"
  | leaf .terminator => "terminator"
  | leaf (.loop name) => s!"loop to '{name}'"
  | leaf (.aborted name) => s!"aborted at '{name}'"

mutual

def linesBelow (margin : String) : Tree → List String
  | leaf _ => []
  | jump _ _ branches => branchLines margin branches

def branchLines (margin : String) : List (String × Tree) → List String
  | [] => []
  | (label, tree) :: rest =>
    (margin ++ label ++ ": " ++ tree.nodeText) :: (linesBelow (margin ++ "  ") tree ++ branchLines margin rest)

end

/-- One line a node, two blanks a level. -/
def text (t : Tree) : String := Text.lines (t.nodeText :: linesBelow "  " t)

/-! ## Check -/

def aborted? (leaves : List Leaf) : Option String :=
  leaves.findSome? fun l =>
    match l with
    | .aborted name => some name
    | _ => none

def check (t : Tree) (subject : String) : Except Fault Unit :=
  let leaves := t.leaves
  match aborted? leaves with
  | some name =>
    .error ⟨.depthExceeded, some name, s!"Reachability tree exceeds depth {maxDepth} at jump '{name}'"⟩
  | none =>
    if leaves.contains .terminator then .ok ()
    else
      .error ⟨.unreachableTerminator, some subject, s!"No terminator reachable in '{subject}'\n" ++ t.text⟩

end Tree

end PulseSequencer
