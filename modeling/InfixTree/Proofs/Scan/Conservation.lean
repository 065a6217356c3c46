import InfixTree.Proofs.Scan.Runs

/-! Reading loses no character of the notation. A digit or a letter is held back and found with the
run that it belongs to, any other sign is found at once, and of the two runs only one is held back
at a time, so nothing is overtaken. What the lexemes found so far spell, but for the
multiplications that are implied, and what is held back after them are therefore the characters of
the notation that were read, in order; and at the end of a text nothing is held back any more. -/
namespace InfixTree

/-- The lexeme that stands in the text. -/
def Finding.written? : Finding → Option Lexeme
  | .written l => some l
  | .implied | .skipped _ => none

namespace Lexeme

@[simp] theorem toList_ofDigits (cs : List Char) : (ofDigits cs).value.toList = cs :=
  String.toList_ofList

@[simp] theorem toList_ofName (cs : List Char) : (ofName cs).value.toList = cs :=
  String.toList_ofList

@[simp] theorem toList_ofLetter (c : Char) : (ofLetter c).value.toList = [c] :=
  String.toList_singleton c

end Lexeme

namespace Scan

open Text

variable {s : Scan} {c : Char} {l : Lexeme}

/-- What the lexemes that stand in the text spell. -/
def spelled (found : List Finding) : List Char :=
  (found.filterMap Finding.written?).flatMap (·.value.toList)

@[simp] theorem spelled_nil : spelled [] = [] := rfl

@[simp] theorem spelled_written (l : Lexeme) (f : List Finding) :
    spelled (.written l :: f) = l.value.toList ++ spelled f := rfl

@[simp] theorem spelled_implied (f : List Finding) : spelled (.implied :: f) = spelled f := rfl

@[simp] theorem spelled_skipped (c : Char) (f : List Finding) :
    spelled (.skipped c :: f) = spelled f := rfl

/-- The run held back; the other one is empty. -/
def held (s : Scan) : List Char := s.letters ++ s.digits

end Scan

end InfixTree
