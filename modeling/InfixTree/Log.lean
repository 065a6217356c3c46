import InfixTree.Parse
import InfixTree.Scan
import InfixTree.Text.Padding
import InfixTree.Text.Quoted
import InfixTree.Token.Basic

/-! What is logged while a text is read and parsed. Reading logs every token and every
character it passes over; parsing logs every node it builds out of operands, which
replays the tree from the leaves up. -/
namespace InfixTree.Log

/-- Levels from the most to the least pressing. -/
inductive Level where
  | error | warn | info | debug | trace
  deriving DecidableEq, Repr

namespace Level

def name : Level → String
  | error => "ERROR"
  | warn => "WARN"
  | info => "INFO"
  | debug => "DEBUG"
  | trace => "TRACE"

/-- Everything up to a level is shown at that level. -/
def rank : Level → Nat
  | error => 1
  | warn => 2
  | info => 3
  | debug => 4
  | trace => 5

end Level

inductive Event where
  | emitted (t : Token)
  | skipped (c : Char)
  | tokenized (text : String) (count : Nat)
  /-- A node was built out of operands. -/
  | built (node : Tree)
  | parsed (root : Tree)
  /-- The command line has its tokens. -/
  | counted (count : Nat)
  deriving DecidableEq, Repr

/-- The part of the program that speaks. -/
inductive Target where
  | program | lexer | parser | yard
  deriving DecidableEq, Repr

def Target.name : Target → String
  | .program => "term_tree"
  | .lexer => "term_tree::interpreter::lexer"
  | .parser => "term_tree::interpreter::parser"
  | .yard => "term_tree::interpreter::parser::shunting_yard"

namespace Event

def level : Event → Level
  | emitted _ | skipped _ | built _ => .trace
  | tokenized .. | parsed _ => .debug
  | counted _ => .info

def target : Event → Target
  | emitted _ | skipped _ | tokenized .. => .lexer
  | built _ => .yard
  | parsed _ => .parser
  | counted _ => .program

def tokenText (t : Token) : String :=
  "Token \x7b id: TokenId(" ++ toString t.id ++ "), kind: " ++ t.kind.name
    ++ ", value: " ++ Text.quoted t.value ++ " \x7d"

/-- A node with the values of its operands around its own. -/
def nodeText : Tree → String
  | .leaf t => t.value
  | .application f a => f.value ++ "(" ++ a.value ++ ")"
  | .operation t l r => l.value ++ " " ++ t.value ++ " " ++ r.value

def message : Event → String
  | emitted t => "Emitting " ++ tokenText t
  | skipped c => "Skipping unrecognized character " ++ Text.quotedChar c
  | tokenized text count =>
    "Tokenized " ++ Text.quoted text ++ " into " ++ toString count ++ " tokens"
  | built node => "Reducing " ++ nodeText node
  | parsed root => "Parsed expression rooted at " ++ root.value
  | counted count => "Read " ++ toString count ++ " tokens"

/-- The line of an event, after the bracket and the time it opens with. -/
def line (e : Event) : String :=
  { width := 5 : Text.Layout }.text e.level.name ++ " " ++ e.target.name ++ "] " ++ e.message

end Event

/-- The findings in a text as they were made, the lexemes among them numbered. -/
def findingEvents : List Finding → List Token → List Event
  | [], _ => []
  | .skipped c :: found, ts => .skipped c :: findingEvents found ts
  | _ :: found, t :: ts => .emitted t :: findingEvents found ts
  | _ :: found, [] => findingEvents found []

def reading (text : String) (ts : List Token) : List Event :=
  findingEvents (findings text) ts ++ [.tokenized text ts.length]

def parsing (ts : List Token) : List Event :=
  (reductions ts).map .built ++
    match parse ts with
    | .ok t => [.parsed t]
    | .error _ => []

end InfixTree.Log
