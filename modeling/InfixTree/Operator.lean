/-! The binary operators of infix notation. Each is written as one symbol and carries
a precedence and an associativity; reading a symbol inverts writing it. -/
namespace InfixTree

inductive Operator where
  | add | subtract | multiply | divide | power
  deriving DecidableEq, Repr

/-- One of the two operands of an operator. -/
inductive Side where
  | left | right
  deriving DecidableEq, Repr

namespace Operator

def symbol : Operator → Char
  | .add => '+'
  | .subtract => '-'
  | .multiply => '*'
  | .divide => '/'
  | .power => '^'

def ofSymbol? : Char → Option Operator
  | '+' => some .add
  | '-' => some .subtract
  | '*' => some .multiply
  | '/' => some .divide
  | '^' => some .power
  | _ => none

/-- A larger number binds its operands more tightly. -/
def precedence : Operator → Nat
  | .add | .subtract => 2
  | .multiply | .divide => 3
  | .power => 4

/-- The side on which a chain of operators of one precedence is grouped. -/
def associativity : Operator → Side
  | .power => .right
  | _ => .left

/-- The text of an operator as it is set between its operands. -/
def spaced : Operator → String → String
  | .power, text => text
  | _, text => " " ++ text ++ " "

/-- The name under which token listings and the log show an operator. -/
def name : Operator → String
  | .add => "Add"
  | .subtract => "Subtract"
  | .multiply => "Multiply"
  | .divide => "Divide"
  | .power => "Exponentiate"

theorem ofSymbol?_symbol (o : Operator) : ofSymbol? o.symbol = some o := by
  cases o <;> rfl

theorem symbol_of_ofSymbol? {c : Char} {o : Operator} (h : ofSymbol? c = some o) :
    o.symbol = c := by
  unfold ofSymbol? at h
  split at h <;> cases h <;> rfl

theorem ofSymbol?_eq_some_iff {c : Char} {o : Operator} :
    ofSymbol? c = some o ↔ o.symbol = c :=
  ⟨symbol_of_ofSymbol?, fun h => h ▸ ofSymbol?_symbol o⟩

end Operator

end InfixTree
