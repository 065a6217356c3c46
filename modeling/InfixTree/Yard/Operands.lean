import InfixTree.ParseError
import InfixTree.Tree.Basic

/-! The operand stack. Each open group has a mark, the height of the stack when the group
was opened, and nothing below the innermost mark can be taken as an operand. The
nodes built so far are kept in the order of their building, also when parsing fails. -/
namespace InfixTree

/-- A parse that failed, with the nodes it had built, newest first. -/
structure Failure where
  cause : ParseError
  built : List Tree
  deriving DecidableEq, Repr

/-- Operands from the top of the stack down, marks from the innermost group out. -/
structure Operands where
  trees : List Tree := []
  marks : List Nat := []
  built : List Tree := []
  deriving DecidableEq, Repr

namespace Operands

def fail (s : Operands) (cause : ParseError) : Except Failure α := .error ⟨cause, s.built⟩

def push (s : Operands) (t : Tree) : Operands := { s with trees := t :: s.trees }

def openGroup (s : Operands) : Operands := { s with marks := s.trees.length :: s.marks }

/-- The mark of the innermost open group; outside of all groups it is the bottom. -/
def floor (s : Operands) : Nat := s.marks.headD 0

/-- Drops the innermost mark and tells how many operands stand above it. -/
def closeGroup (s : Operands) : Nat × Operands :=
  (s.trees.length - s.floor, { s with marks := s.marks.tail })

/-- The topmost operand of the innermost group, wanted by an operator or a function. -/
def pop (s : Operands) (wanting : Token) : Except Failure (Tree × Operands) :=
  match s.trees with
  | t :: rest =>
    if s.floor ≤ rest.length then .ok (t, { s with trees := rest })
    else s.fail (.missingOperand wanting.value)
  | [] => s.fail (.missingOperand wanting.value)

def build (s : Operands) (t : Tree) : Operands :=
  { s with trees := t :: s.trees, built := t :: s.built }

/-- The operand on top is the right one. -/
def operate (s : Operands) (operator : Token) : Except Failure Operands := do
  let (right, s) ← s.pop operator
  let (left, s) ← s.pop operator
  return s.build (.operation operator left right)

def apply (s : Operands) (function : Token) : Except Failure Operands := do
  let (argument, s) ← s.pop function
  return s.build (.application function argument)

/-- Applies a function to the one operand its group held. -/
def call (s : Operands) (function : Token) : Nat → Except Failure Operands
  | 0 => s.fail (.missingOperand function.value)
  | 1 => s.apply function
  | _ => s.fail (.multipleArguments function.value)

/-- What is left at the end has to be a single tree. -/
def root (s : Operands) : Except ParseError Tree :=
  match s.trees with
  | [] => .error .emptyExpression
  | [t] => .ok t
  | ts => .error (.multipleRoots ts.length)

end Operands

end InfixTree
