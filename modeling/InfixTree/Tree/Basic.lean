import InfixTree.Token.Basic

/-! Expression trees. Every node wraps one token, and its shape does not depend on the
kind of that token: an operation may be built on a literal. Trees that come from
parsing have the shape their kinds ask for. -/
namespace InfixTree

inductive Tree where
  | leaf (token : Token)
  | application (token : Token) (argument : Tree)
  | operation (token : Token) (left right : Tree)
  deriving DecidableEq, Repr

namespace Tree

def token : Tree → Token
  | leaf t | application t _ | operation t _ _ => t

def id (t : Tree) : Nat := t.token.id

def value (t : Tree) : String := t.token.value

/-- The children, left before right. -/
def children : Tree → List Tree
  | leaf _ => []
  | application _ a => [a]
  | operation _ l r => [l, r]

def isLeaf (t : Tree) : Bool := t.children.isEmpty

def size : Tree → Nat
  | leaf _ => 1
  | application _ a => a.size + 1
  | operation _ l r => l.size + r.size + 1

/-- An application has its argument on the left. -/
def child? : Tree → Side → Option Tree
  | application _ a, .left => some a
  | operation _ l _, .left => some l
  | operation _ _ r, .right => some r
  | _, _ => none

/-- The node at the end of a path that starts at the root. -/
def subtree? (t : Tree) (path : List Side) : Option Tree := path.foldlM child? t

/-- All nodes, each before its children. -/
def preorder : Tree → List Tree
  | leaf t => [leaf t]
  | application t a => application t a :: a.preorder
  | operation t l r => operation t l r :: (l.preorder ++ r.preorder)

end Tree

end InfixTree
