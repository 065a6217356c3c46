import InfixTree.Scan
import InfixTree.Token.Allocator

/-! From a text to its tokens. Numbering is apart from reading, so which tokens a text
has does not hang on the ids they get. -/
namespace InfixTree

/-- The tokens of a text, numbered from one. -/
def tokenize (text : String) : List Token :=
  Token.numberFrom 1 (lexemes text)

/-- The tokens of a text with ids from an allocator, which reading draws down. -/
def tokenizeFrom (ids : Allocator) (text : String) : Except OutOfIds (List Token) × Allocator :=
  ids.number (lexemes text)

end InfixTree
