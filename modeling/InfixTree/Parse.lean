import InfixTree.Yard.Basic

/-! From tokens to a tree. -/
namespace InfixTree

/-- The operands left after a whole list has been read from an empty yard. -/
def arrange (ts : List Token) : Except Failure Operands := do
  (← Yard.readAll {} ts).finish

def parse (ts : List Token) : Except ParseError Tree :=
  match arrange ts with
  | .ok s => s.root
  | .error e => .error e.cause

/-- The nodes with operands that parsing builds, in order; if it fails, those before. -/
def reductions (ts : List Token) : List Tree :=
  match arrange ts with
  | .ok s => s.built.reverse
  | .error e => e.built.reverse

end InfixTree
