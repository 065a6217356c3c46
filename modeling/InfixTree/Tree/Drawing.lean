import InfixTree.Tree.Basic

/-! Drawings of trees, one line for each node under a heading. A line opens with a piece
for every ancestor, a bar where that ancestor has a sibling still to come, and then a
piece of its own, a corner if the node is the last child. -/
namespace InfixTree

/-- A part of the margin of a drawing, three characters wide. -/
inductive Piece where
  | branch | corner | bar | gap
  deriving DecidableEq, Repr

def Piece.text : Piece → String
  | .branch => "├─ "
  | .corner => "└─ "
  | .bar => "│  "
  | .gap => "   "

/-- The piece before a node itself. -/
def Piece.own (last : Bool) : Piece := if last then .corner else .branch

/-- The piece before everything that hangs from a node. -/
def Piece.below (last : Bool) : Piece := if last then .gap else .bar

structure DrawnLine where
  margin : List Piece
  value : String
  deriving DecidableEq, Repr

def DrawnLine.text (line : DrawnLine) : String :=
  String.join (line.margin.map Piece.text) ++ line.value

namespace Tree

/-- The lines of a subtree in a margin, `last` telling that no sibling follows it. -/
def drawnLines (margin : List Piece) (last : Bool) : Tree → List DrawnLine
  | leaf t => [⟨margin ++ [.own last], t.value⟩]
  | application t a =>
    ⟨margin ++ [.own last], t.value⟩ :: a.drawnLines (margin ++ [.below last]) true
  | operation t l r =>
    ⟨margin ++ [.own last], t.value⟩ ::
      (l.drawnLines (margin ++ [.below last]) false ++
        r.drawnLines (margin ++ [.below last]) true)

/-- The root hangs from the heading as its only child. -/
def drawing (t : Tree) : String :=
  String.join (("expression" :: (t.drawnLines [] true).map DrawnLine.text).map (· ++ "\n"))

end Tree

end InfixTree
