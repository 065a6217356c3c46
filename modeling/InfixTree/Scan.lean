import InfixTree.Glyph
import InfixTree.Token.Basic

/-! Reading a text one character at a time. Digits and letters are held back until
the run they belong to ends, for only the next character tells whether letters are
the name of a function or variables that are multiplied together. Every character of
the notation ends up in exactly one written lexeme; multiplications that the text
leaves out are added as implied ones. -/
namespace InfixTree

/-- What reading has found. -/
inductive Finding where
  /-- A lexeme that stands in the text. -/
  | written (l : Lexeme)
  /-- A multiplication that the text leaves out. -/
  | implied
  /-- A character outside the notation, passed over. -/
  | skipped (c : Char)
  deriving DecidableEq, Repr

namespace Finding

def lexeme? : Finding → Option Lexeme
  | .written l => some l
  | .implied => some (.ofOperator .multiply)
  | .skipped _ => none

end Finding

/-- The runs held back, in reading order, and the character read last. -/
structure Scan where
  letters : List Char := []
  digits : List Char := []
  last : Option Char := none
  deriving DecidableEq, Repr

namespace Scan

open Finding

/-- Ends the run held back. Letters are then variables with products between them. -/
def flush (s : Scan) : Scan × List Finding :=
  if s.letters ≠ [] then
    ({ s with letters := [] }, (s.letters.map (written <| .ofLetter ·)).intersperse implied)
  else if s.digits ≠ [] then
    ({ s with digits := [] }, [written (.ofDigits s.digits)])
  else
    (s, [])

/-- Ends the run held back before a lexeme of one character. -/
def endRun (s : Scan) (l : Lexeme) : Scan × List Finding :=
  let (s, found) := s.flush
  (s, found ++ [written l])

/-- What stands before an opening parenthesis makes it a call, a factor or a plain group. -/
def openGroup (s : Scan) : Scan × List Finding :=
  if s.letters ≠ [] then
    ({ s with letters := [] }, [written (.ofName s.letters), written .leftParenthesis])
  else if s.digits ≠ [] then
    ({ s with digits := [] }, [written (.ofDigits s.digits), implied, written .leftParenthesis])
  else if s.last = some ')' then
    (s, [implied, written .leftParenthesis])
  else
    (s, [written .leftParenthesis])

/-- Digits after letters multiply each of them; letters after digits multiply the literal. -/
def read (s : Scan) (c : Char) : Scan × List Finding :=
  let (s, found) := match Glyph.ofChar c with
    | .digit =>
      ({ s with letters := [], digits := s.digits ++ [c] },
        s.letters.flatMap fun l => [written (.ofLetter l), implied])
    | .letter =>
      ({ s with letters := s.letters ++ [c], digits := [] },
        if s.digits = [] then [] else [written (.ofDigits s.digits), implied])
    | .operator o => s.endRun (.ofOperator o)
    | .leftParenthesis => s.openGroup
    | .rightParenthesis => s.endRun .rightParenthesis
    | .comma => s.endRun .comma
    | .foreign => (s, [skipped c])
  ({ s with last := some c }, found)

def readAll (s : Scan) : List Char → Scan × List Finding
  | [] => (s, [])
  | c :: cs =>
    let (s, found) := s.read c
    let (s, rest) := s.readAll cs
    (s, found ++ rest)

end Scan

/-- Everything found in a text, in order. -/
def findings (text : String) : List Finding :=
  let (s, found) := Scan.readAll {} (Glyph.normalize text.toList)
  found ++ s.flush.2

def lexemes (text : String) : List Lexeme :=
  (findings text).filterMap Finding.lexeme?

end InfixTree
