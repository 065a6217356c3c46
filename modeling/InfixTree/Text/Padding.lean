/-! Fields of fixed width. Text is cut to the precision and then filled up to the
width; a number is filled up and never cut. Both count characters. -/
namespace InfixTree.Text

inductive Alignment where
  | left | right | center
  deriving DecidableEq, Repr

/-- How a field is laid out. Without an alignment text stands left and numbers right. -/
structure Layout where
  alignment : Option Alignment := none
  fill : Char := ' '
  width : Nat := 0
  precision : Option Nat := none
  deriving DecidableEq, Repr

namespace Layout

/-- Of an odd number of fill characters around a centred field the last goes right. -/
def pad (layout : Layout) (standard : Alignment) (text : String) : String :=
  let missing := layout.width - text.length
  let before := match layout.alignment.getD standard with
    | .left => 0
    | .right => missing
    | .center => missing / 2
  let filling (n : Nat) := String.ofList (List.replicate n layout.fill)
  filling before ++ text ++ filling (missing - before)

def text (layout : Layout) (s : String) : String :=
  layout.pad .left <| match layout.precision with
    | some n => String.ofList (s.toList.take n)
    | none => s

def number (layout : Layout) (n : Nat) : String :=
  layout.pad .right (toString n)

end Layout

end InfixTree.Text
