import InfixTree.Operator
import InfixTree.Text.Blank

/-! Characters as the notation sees them. Blanks are dropped first and the two
alternative operator signs are replaced; every other character then plays one role. -/
namespace InfixTree

/-- The role of a character in the notation. -/
inductive Glyph where
  | digit
  | letter
  | operator (o : Operator)
  | leftParenthesis
  | rightParenthesis
  | comma
  | foreign
  deriving DecidableEq, Repr

namespace Glyph

/-- Digits and letters are those of ASCII, and the point counts as a digit. -/
def ofChar (c : Char) : Glyph :=
  if c.isDigit || c = '.' then .digit
  else if c.isAlpha then .letter
  else if c = '(' then .leftParenthesis
  else if c = ')' then .rightParenthesis
  else if c = ',' then .comma
  else match Operator.ofSymbol? c with
    | some o => .operator o
    | none => .foreign

theorem ofChar_eq_digit_iff {c : Char} : ofChar c = .digit ↔ c.isDigit ∨ c = '.' := by
  unfold ofChar
  split
  · simp_all
  · rename_i h
    rw [Bool.or_eq_true, decide_eq_true_eq] at h
    constructor
    · intro hc
      repeat' split at hc
      all_goals cases hc
    · intro hc
      exact absurd hc h

theorem isAlpha_iff_toNat {c : Char} : c.isAlpha ↔
    (65 ≤ c.toNat ∧ c.toNat ≤ 90) ∨ (97 ≤ c.toNat ∧ c.toNat ≤ 122) := by
  have hupper : c.isUpper ↔ 65 ≤ c.toNat ∧ c.toNat ≤ 90 := decide_eq_true_iff
  have hlower : c.isLower ↔ 97 ≤ c.toNat ∧ c.toNat ≤ 122 :=
    Bool.and_eq_true_iff.trans (and_congr decide_eq_true_iff decide_eq_true_iff)
  rw [← hupper, ← hlower]
  exact Bool.or_eq_true_iff

theorem not_digit_of_isAlpha {c : Char} (h : c.isAlpha) : ¬ (c.isDigit ∨ c = '.') := by
  rintro (hd | rfl)
  · rw [isAlpha_iff_toNat] at h
    have hd : 48 ≤ c.toNat ∧ c.toNat ≤ 57 := Char.isDigit_iff_toNat.1 hd
    omega
  · exact absurd h (by decide)

theorem ofChar_eq_letter_iff {c : Char} : ofChar c = .letter ↔ c.isAlpha := by
  constructor
  · intro h
    unfold ofChar at h
    repeat' split at h
    all_goals first | assumption | cases h
  · intro h
    have hd := not_digit_of_isAlpha h
    simp only [ofChar, Bool.or_eq_true, decide_eq_true_eq, hd, if_false, h, if_true]

theorem ofChar_symbol (o : Operator) : ofChar o.symbol = .operator o := by cases o <;> rfl

/-- The middle dot stands for a product and the colon for a quotient. -/
def standard : Char → Char
  | '·' => '*'
  | ':' => '/'
  | c => c

def normalize (cs : List Char) : List Char :=
  (cs.filter (!Text.isBlank ·)).map standard

end Glyph

end InfixTree
