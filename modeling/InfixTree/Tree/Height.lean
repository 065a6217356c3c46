import InfixTree.Tree.Basic
import Std.Data.TreeMap

/-! Heights of nodes, a leaf being at zero. The heights of a whole tree are gathered by
id in one pass; a node is entered after its operands, and where ids repeat the entry
made last stands. -/
namespace InfixTree

abbrev Heights := Std.TreeMap Nat Nat

namespace Tree

def height : Tree → Nat
  | leaf _ => 0
  | application _ a => a.height + 1
  | operation _ l r => max l.height r.height + 1

/-- The height of a tree, with the heights of its nodes entered over those already there. -/
def measure : Tree → Heights → Nat × Heights
  | leaf t, hs => (0, hs.insert t.id 0)
  | application t a, hs =>
    let (m, hs) := a.measure hs
    (m + 1, hs.insert t.id (m + 1))
  | operation t l r, hs =>
    let (m, hs) := l.measure hs
    let (n, hs) := r.measure hs
    (max m n + 1, hs.insert t.id (max m n + 1))

def heights (t : Tree) : Heights := (t.measure ∅).2

theorem measure_fst (t : Tree) (hs : Heights) : (t.measure hs).1 = t.height := by
  induction t generalizing hs with
  | leaf => rfl
  | application _ _ ih => simp [measure, height, ih]
  | operation _ _ _ ihl ihr => simp [measure, height, ihl, ihr]

end Tree

end InfixTree
