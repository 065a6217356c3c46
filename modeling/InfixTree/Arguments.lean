import InfixTree.Log
import InfixTree.Report

/-! The arguments of a command line: one expression, a flag for each section of the
report, and flags that raise or lower the level of the log. -/
namespace InfixTree

structure Arguments where
  expression : String
  tokens : Bool
  depths : Bool
  edges : Bool
  levels : Bool
  /-- The least pressing level that is logged, if anything is. -/
  logLevel : Option Log.Level
  deriving DecidableEq, Repr

namespace Arguments

def wants (arguments : Arguments) : Report.Section → Bool
  | .tokens => arguments.tokens
  | .depths => arguments.depths
  | .edges => arguments.edges
  | .levels => arguments.levels

/-- The sections that are asked for, in the order of the report. -/
def sections (arguments : Arguments) : List Report.Section :=
  Report.Section.all.filter arguments.wants

/-! ### Reading a command line -/

inductive Word where
  | expression (text : String)
  | wants (s : Report.Section)
  | louder
  | quieter
  deriving DecidableEq, Repr

/-- Short flags may stand together in one argument. -/
def Word.ofLetter? : Char → Option Word
  | 'v' => some .louder
  | 'q' => some .quieter
  | _ => none

/-- What one argument says. A lone hyphen is an expression; anything else that starts
with one has to be a flag. -/
def Word.ofString? (arg : String) : Option (List Word) :=
  match arg with
  | "--tokens" => some [.wants .tokens]
  | "--depths" => some [.wants .depths]
  | "--edges" => some [.wants .edges]
  | "--levels" => some [.wants .levels]
  | "--verbose" => some [.louder]
  | "--quiet" => some [.quieter]
  | _ =>
    match arg.toList with
    | '-' :: c :: cs => (c :: cs).mapM Word.ofLetter?
    | _ => some [.expression arg]

/-- After two hyphens everything is an expression. -/
def words? : List String → Option (List Word)
  | [] => some []
  | "--" :: args => some (args.map .expression)
  | arg :: args => return (← Word.ofString? arg) ++ (← words? args)

def expressions (ws : List Word) : List String :=
  ws.filterMap fun
    | .expression text => some text
    | _ => none

/-- How far the level is raised, or lowered if negative. It is kept in one signed byte,
so a count that leaves the range of -128 to 127 wraps around. -/
def loudness (ws : List Word) : Int :=
  ((ws.count .louder : Int) - (ws.count .quieter : Int)).bmod 256

/-- Errors alone are logged unless the level is raised or lowered. -/
def levelAt : Int → Option Log.Level
  | .negSucc _ => none
  | 0 => some .error
  | 1 => some .warn
  | 2 => some .info
  | 3 => some .debug
  | _ => some .trace

/-- A section may be asked for once, and the level not both raised and lowered. -/
def ofStrings? (args : List String) : Option Arguments := do
  let ws ← words? args
  let [expression] := expressions ws | none
  guard (Report.Section.all.all fun s => ws.count (.wants s) ≤ 1)
  guard (.louder ∉ ws ∨ .quieter ∉ ws)
  return {
    expression
    tokens := ws.contains (.wants .tokens)
    depths := ws.contains (.wants .depths)
    edges := ws.contains (.wants .edges)
    levels := ws.contains (.wants .levels)
    logLevel := levelAt (loudness ws) }

end Arguments

end InfixTree
