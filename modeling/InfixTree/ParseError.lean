/-! Why a token list is not one expression. -/
namespace InfixTree

inductive ParseError where
  | emptyExpression
  | unmatchedParenthesis
  /-- An operator or function, given by its text, finds no operand in its group. -/
  | missingOperand (value : String)
  | multipleRoots (count : Nat)
  | multipleArguments (function : String)
  | misplacedComma
  deriving DecidableEq, Repr

def ParseError.message : ParseError → String
  | .emptyExpression => "expression is empty"
  | .unmatchedParenthesis => "mismatched parenthesis"
  | .missingOperand value => "'" ++ value ++ "' is missing an operand"
  | .multipleRoots count =>
    "expression has " ++ toString count ++ " separate parts instead of one"
  | .multipleArguments function => "function '" ++ function ++ "' takes a single argument"
  | .misplacedComma => "comma outside of a function call"

end InfixTree
