import InfixTree.Operator

/-! Tokens. A lexeme is a kind with the text it was written as, and a token is a
lexeme with an id. Nothing ties the text to the kind: a token may be put together by
hand, and only those that were read from a text are known to fit. -/
namespace InfixTree

/-- What a token stands for. -/
inductive Kind where
  | literal
  | variable
  | operator (o : Operator)
  | function
  | leftParenthesis
  | rightParenthesis
  | comma
  deriving DecidableEq, Repr

/-- The name under which token listings and the log show a kind. -/
def Kind.name : Kind → String
  | .literal => "Literal"
  | .variable => "Variable"
  | .operator o => "Operator(" ++ o.name ++ ")"
  | .function => "Function"
  | .leftParenthesis => "LeftParenthesis"
  | .rightParenthesis => "RightParenthesis"
  | .comma => "Comma"

/-- A word of the notation, not yet numbered. -/
structure Lexeme where
  kind : Kind
  value : String
  deriving DecidableEq, Repr

namespace Lexeme

def ofOperator (o : Operator) : Lexeme := ⟨.operator o, o.symbol.toString⟩

def ofDigits (digits : List Char) : Lexeme := ⟨.literal, String.ofList digits⟩

def ofLetter (letter : Char) : Lexeme := ⟨.variable, letter.toString⟩

def ofName (letters : List Char) : Lexeme := ⟨.function, String.ofList letters⟩

def leftParenthesis : Lexeme := ⟨.leftParenthesis, "("⟩

def rightParenthesis : Lexeme := ⟨.rightParenthesis, ")"⟩

def comma : Lexeme := ⟨.comma, ","⟩

/-- Only operator lexemes hold an operator, whatever their text is. -/
def operator? (l : Lexeme) : Option Operator :=
  match l.kind with
  | .operator o => some o
  | _ => none

def precedence? (l : Lexeme) : Option Nat :=
  l.operator?.map Operator.precedence

def associativity? (l : Lexeme) : Option Side :=
  l.operator?.map Operator.associativity

end Lexeme

/-- A numbered lexeme. -/
structure Token extends Lexeme where
  id : Nat
  deriving DecidableEq, Repr

namespace Token

def ofOperator (id : Nat) (o : Operator) : Token := { Lexeme.ofOperator o with id }

end Token

end InfixTree
