import InfixTree.Tree.Basic

/-! Trees as infix text. A group is written around an operand only where the tree could
not be read back without it: under an operator that binds more tightly, or under one
of equal precedence on the side where its chains are not grouped. -/
namespace InfixTree

/-- Whether an operation must be put in parentheses to be an operand of another. -/
def Operator.encloses (outer : Operator) (side : Side) (inner : Operator) : Bool :=
  inner.precedence < outer.precedence
    || (inner.precedence = outer.precedence && side ≠ outer.associativity)

namespace Tree

/-- A node with an operand that is not an operation of two is written as a call. -/
def spellUnder : Option (Operator × Side) → Tree → String
  | _, leaf t => t.value
  | _, application f a => f.value ++ "(" ++ a.spellUnder none ++ ")"
  | outer, operation t l r =>
    match t.operator? with
    | none => t.value ++ "(" ++ l.spellUnder none ++ ")"
    | some o =>
      let text := l.spellUnder (some (o, .left)) ++ o.spaced o.symbol.toString
        ++ r.spellUnder (some (o, .right))
      if outer.any fun (p, side) => p.encloses side o then "(" ++ text ++ ")" else text

def spelling (t : Tree) : String := t.spellUnder none

end Tree

end InfixTree
