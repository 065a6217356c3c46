import InfixTree.Token.Basic

/-! Numbering of tokens. An allocator hands out 64-bit ids in rising order. It never
hands out the largest one: asked for an id when only that is left, it refuses and
stays as it is. -/
namespace InfixTree

/-- The refusal to hand out an id. -/
structure OutOfIds where
  deriving DecidableEq, Repr

def OutOfIds.message (_ : OutOfIds) : String := "attempt to add with overflow"

/-- The id that comes next, a 64-bit number. -/
structure Allocator where
  next : Nat
  next_lt : next < UInt64.size
  deriving DecidableEq, Repr

namespace Allocator

def startingAt (first : Nat) (h : first < UInt64.size := by decide) : Allocator := ⟨first, h⟩

/-- Ids count from one. -/
def fresh : Allocator := startingAt 1

instance : Inhabited Allocator := ⟨fresh⟩

def allocate (a : Allocator) : Except OutOfIds Nat × Allocator :=
  if h : a.next + 1 < UInt64.size then (.ok a.next, ⟨a.next + 1, h⟩) else (.error {}, a)

/-- One id for each lexeme in turn. The ids handed out before a refusal are gone. -/
def number (a : Allocator) : List Lexeme → Except OutOfIds (List Token) × Allocator
  | [] => (.ok [], a)
  | l :: ls =>
    match a.allocate with
    | (.error e, a) => (.error e, a)
    | (.ok id, a) =>
      let (rest, a) := a.number ls
      (rest.map (⟨l, id⟩ :: ·), a)

end Allocator

/-- Numbering without a limit. -/
def Token.numberFrom (first : Nat) (ls : List Lexeme) : List Token :=
  (ls.zipIdx first).map fun (l, id) => ⟨l, id⟩

end InfixTree
