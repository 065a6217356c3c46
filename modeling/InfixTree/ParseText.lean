import InfixTree.Parse
import InfixTree.Tokenize
import InfixTree.Tree.Spelling

/-! From a text to its tree, and back to the text the tree is spelled as. -/
namespace InfixTree

/-- A text that is not an expression, and why. -/
structure TextError where
  text : String
  cause : ParseError
  deriving DecidableEq, Repr

namespace TextError

def message (e : TextError) : String := "could not parse expression '" ++ e.text ++ "'"

/-- What went wrong, from the outside in. -/
def messages (e : TextError) : List String := [e.message, e.cause.message]

end TextError

def parseText (text : String) : Except TextError Tree :=
  (parse (tokenize text)).mapError (⟨text, ·⟩)

/-- The text with multiplications written out, even spaces and no needless parentheses. -/
def respell (text : String) : Except TextError String :=
  (parseText text).map Tree.spelling

end InfixTree
