import InfixTree.Tree.Basic

/-! Trees drawn by a library. The library is told of one item after another, begins and ends
those that have others below them, and writes out what has been built as bytes. A visit tells
it of the nodes in preorder, and the bytes are then read back as text. -/
namespace InfixTree

/-- A library that builds an outline call by call and writes it out. -/
structure Outliner where
  State : Type
  start (title : String) : State
  beginChild (text : String) (s : State) : State
  addEmptyChild (text : String) (s : State) : State
  endChild (s : State) : State
  /-- The bytes of what has been built, unless they cannot be written. -/
  write (s : State) : Option ByteArray

namespace Outliner

/-- The calls for a tree: a node with operands is begun before them and ended after them. -/
def visit (D : Outliner) : Tree → D.State → D.State
  | .leaf t, s => D.addEmptyChild t.value s
  | .application t a, s => D.endChild (D.visit a (D.beginChild t.value s))
  | .operation t l r, s => D.endChild (D.visit r (D.visit l (D.beginChild t.value s)))

def render (D : Outliner) (t : Tree) : Except String String :=
  match D.write (D.visit t (D.start "expression")) with
  | none => .error "Failed to draw tree"
  | some bytes =>
    match String.fromUTF8? bytes with
    | none => .error "Drawn tree is not valid text"
    | some text => .ok text

end Outliner

end InfixTree
