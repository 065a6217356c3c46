import InfixTree.Token.Basic

/-! Token lists as text. Operators stand between spaces, save for powers, and a comma
is followed by one; all else is written close together. -/
namespace InfixTree

def Lexeme.spelling (l : Lexeme) : String :=
  match l.kind with
  | .operator o => o.spaced l.value
  | .comma => l.value ++ " "
  | _ => l.value

def Token.spelling (ts : List Token) : String :=
  String.join (ts.map (·.toLexeme.spelling))

end InfixTree
