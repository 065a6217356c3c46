import InfixTree.Yard.Operands

/-! The shunting yard. Operators, functions and open parentheses wait on one stack until
their operands on the other are complete: an operator until one that binds no more
tightly arrives, its group closes or the list ends, a function until its group
closes. -/
namespace InfixTree

/-- Whether an arriving operator lets one that is waiting go first. Operators that are
grouped on the right never do. -/
def Operator.yieldsTo (arriving waiting : Operator) : Bool :=
  arriving.associativity = .left && arriving.precedence ≤ waiting.precedence

/-- Tokens waiting, the newest first, and the operands. -/
structure Yard where
  operators : List Token := []
  operands : Operands := {}
  deriving DecidableEq, Repr

namespace Yard

/-- Builds operations from the top of the stack down, as far as operators satisfy the
condition. -/
def reduce (p : Operator → Bool) : List Token → Operands → Except Failure Yard
  | [], s => .ok ⟨[], s⟩
  | t :: ts, s =>
    if t.operator?.any p then do reduce p ts (← s.operate t)
    else .ok ⟨t :: ts, s⟩

def reduceAll (y : Yard) : Except Failure Yard := reduce (fun _ => true) y.operators y.operands

def pushOperator (y : Yard) (t : Token) (o : Operator) : Except Failure Yard := do
  let y ← reduce o.yieldsTo y.operators y.operands
  return { y with operators := t :: y.operators }

/-- A function that waits right below the group takes what the group held. -/
def leaveGroup (operators : List Token) (operands : Operands) : Except Failure Yard :=
  let (count, operands) := operands.closeGroup
  match operators with
  | f :: rest =>
    if f.kind = .function then return ⟨rest, ← operands.call f count⟩
    else return ⟨f :: rest, operands⟩
  | [] => return ⟨[], operands⟩

def closeGroup (y : Yard) : Except Failure Yard := do
  let y ← y.reduceAll
  match y.operators with
  | t :: rest =>
    if t.kind = .leftParenthesis then leaveGroup rest y.operands
    else y.operands.fail .unmatchedParenthesis
  | [] => y.operands.fail .unmatchedParenthesis

/-- Arguments cannot be separated, so a comma in a call means that it has several. -/
def commaError (operators : List Token) : ParseError :=
  match operators.dropWhile (·.kind ≠ .leftParenthesis) with
  | _ :: f :: _ => if f.kind = .function then .multipleArguments f.value else .misplacedComma
  | _ => .misplacedComma

def step (y : Yard) (t : Token) : Except Failure Yard :=
  match t.kind with
  | .literal | .variable => .ok { y with operands := y.operands.push (.leaf t) }
  | .function => .ok { y with operators := t :: y.operators }
  | .leftParenthesis => .ok ⟨t :: y.operators, y.operands.openGroup⟩
  | .rightParenthesis => y.closeGroup
  | .operator o => y.pushOperator t o
  | .comma => y.operands.fail (commaError y.operators)

/-- The yard after every token of a list has been read. -/
def readAll (y : Yard) (ts : List Token) : Except Failure Yard := ts.foldlM step y

/-- Nothing but operators may still be waiting at the end. -/
def finish (y : Yard) : Except Failure Operands := do
  let y ← y.reduceAll
  if y.operators = [] then return y.operands else y.operands.fail .unmatchedParenthesis

end Yard

end InfixTree
