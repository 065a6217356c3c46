import InfixTree.Text.Padding
import InfixTree.Token.Spelling
import InfixTree.Tree.Drawing
import InfixTree.Tree.Height
import InfixTree.Tree.Spelling
import InfixTree.Tree.Walk

/-! The report on an expression: its spelling, its drawing and such further sections as
are asked for. A section is a title over rows, and its rows are data before they are
lines. -/
namespace InfixTree.Report

inductive Section where
  | tokens | depths | edges | levels
  deriving DecidableEq, Repr

/-- The sections in the order of the report. -/
def Section.all : List Section := [.tokens, .depths, .edges, .levels]

/-- The tokens that are nodes of the tree, with their heights, in the order of the text. -/
def depthRows (ts : List Token) (t : Tree) : List (Token × Nat) :=
  ts.filterMap fun token => t.heights[token.id]?.map (token, ·)

/-- Ids stand on the right of a column of four. -/
def idText (n : Nat) : String := { width := 4 : Text.Layout }.number n

def tokenLine (t : Token) : String :=
  idText t.id ++ "  " ++ { width := 20 : Text.Layout }.text t.kind.name ++ "  " ++ t.value

def depthLine (row : Token × Nat) : String :=
  idText row.1.id ++ "  " ++ { width := 8 : Text.Layout }.text row.1.value ++ "  "
    ++ toString row.2

def edgeLine (e : Edge) : String := idText e.source ++ " -> " ++ toString e.target

def levelLine (level : List Tree) : String := " ".intercalate (level.map Tree.value)

def title (ts : List Token) (t : Tree) : Section → String
  | .tokens => "tokens: " ++ Token.spelling ts
  | .depths => "max depth: " ++ toString (t.measure ∅).1
  | .edges => "edges:"
  | .levels => "levels:"

def rows (ts : List Token) (t : Tree) : Section → List String
  | .tokens => ts.map tokenLine
  | .depths => (depthRows ts t).map depthLine
  | .edges => t.edges.map edgeLine
  | .levels => t.stages.map levelLine

def unlines (lines : List String) : String := String.join (lines.map (· ++ "\n"))

def sectionText (ts : List Token) (t : Tree) (s : Section) : String :=
  "\n" ++ unlines (title ts t s :: rows ts t s)

def text (ts : List Token) (t : Tree) (sections : List Section) : String :=
  t.spelling ++ "\n" ++ t.drawing ++ String.join (sections.map (sectionText ts t))

end InfixTree.Report
