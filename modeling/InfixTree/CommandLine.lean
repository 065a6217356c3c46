import InfixTree.Arguments
import InfixTree.ParseText

/-! A run of the command line: from its arguments to its output. -/
namespace InfixTree

/-- What a run comes to. The log holds everything that happened, at every level. -/
inductive Outcome where
  | misused
  | failed (arguments : Arguments) (log : List Log.Event) (e : TextError)
  | reported (arguments : Arguments) (log : List Log.Event) (report : String)
  deriving DecidableEq, Repr

namespace Outcome

def exitCode : Outcome → Nat
  | misused => 2
  | failed .. => 1
  | reported .. => 0

def output : Outcome → String
  | misused | failed .. => ""
  | reported _ _ report => report

/-- The lines of the log that the arguments let through. -/
def logLines (arguments : Arguments) (log : List Log.Event) : List String :=
  (log.filter fun e => arguments.logLevel.any (e.level.rank ≤ ·.rank)).map Log.Event.line

def errorLines (e : TextError) : List String :=
  ["Error: " ++ e.message, "", "Caused by:", "    " ++ e.cause.message]

/-- What the log shows of a run. -/
def log : Outcome → List String
  | misused => []
  | failed arguments log _ | reported arguments log _ => logLines arguments log

def usage : String :=
  "usage: infixtree [--tokens] [--depths] [--edges] [--levels] [-v ... | -q ...] EXPRESSION"

/-- What went wrong, shown whatever the level of the log. -/
def errors : Outcome → List String
  | misused => [usage]
  | failed _ _ e => errorLines e
  | reported .. => []

end Outcome

def evaluate (arguments : Arguments) : Outcome :=
  let ts := tokenize arguments.expression
  let log := Log.reading arguments.expression ts ++ [.counted ts.length] ++ Log.parsing ts
  match parse ts with
  | .ok t => .reported arguments log (Report.text ts t arguments.sections)
  | .error cause => .failed arguments log ⟨arguments.expression, cause⟩

def runCommandLine (args : List String) : Outcome :=
  match Arguments.ofStrings? args with
  | some arguments => evaluate arguments
  | none => .misused

end InfixTree
