import InfixTree.Tree.Basic

/-! Walks by level. The queue holds the nodes still to be visited with their depths;
a node is followed by its children, the right one first, so within a level the walk
goes from right to left. -/
namespace InfixTree

/-- A link from a node to one of its children, named by their ids. -/
structure Edge where
  source : Nat
  target : Nat
  deriving DecidableEq, Repr

namespace Tree

/-- The number of nodes in the subtrees that are queued. -/
def queueSize : List (Tree × Nat) → Nat
  | [] => 0
  | (t, _) :: queue => t.size + queueSize queue

theorem queueSize_append (p q : List (Tree × Nat)) :
    queueSize (p ++ q) = queueSize p + queueSize q := by
  induction p with
  | nil => simp [queueSize]
  | cons _ _ ih => simp only [List.cons_append, queueSize, ih]; omega

/-- The children of a node as they are queued. -/
def queued (t : Tree) (depth : Nat) : List (Tree × Nat) :=
  t.children.reverse.map (·, depth + 1)

theorem queueSize_queued (t : Tree) (depth : Nat) : queueSize (t.queued depth) + 1 = t.size := by
  cases t with
  | leaf => rfl
  | application => rfl
  | operation => simp only [queued, children, List.reverse_cons, List.reverse_nil, List.nil_append,
      List.cons_append, List.map_cons, List.map_nil, queueSize, size]; omega

/-- Each visit replaces a subtree by what hangs from its root. -/
theorem queueSize_visit (t : Tree) (depth : Nat) (queue : List (Tree × Nat)) :
    queueSize (queue ++ t.queued depth) < queueSize ((t, depth) :: queue) := by
  have := t.queueSize_queued depth
  simp only [queueSize_append, queueSize]
  omega

def visit : List (Tree × Nat) → List (Tree × Nat)
  | [] => []
  | (t, depth) :: queue => (t, depth) :: visit (queue ++ t.queued depth)
termination_by queue => queueSize queue
decreasing_by exact queueSize_visit ..

/-- Every node with its depth, the root being at depth zero. -/
def levelOrder (t : Tree) : List (Tree × Nat) := visit [(t, 0)]

/-- Every edge, the edges of one node from left to right. -/
def edges (t : Tree) : List Edge :=
  t.levelOrder.flatMap fun (n, _) => n.children.map fun c => ⟨n.id, c.id⟩

/-- The nodes with operands by depth, deepest first and from left to right, which is an
order in which they can be evaluated. -/
def stages (t : Tree) : List (List Tree) :=
  let operations := (t.levelOrder.filter (!·.1.isLeaf)).reverse
  (operations.splitBy (·.2 == ·.2)).map (·.map (·.1))

end Tree

end InfixTree
