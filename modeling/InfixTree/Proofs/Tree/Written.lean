import InfixTree.Proofs.Grammar
import InfixTree.Proofs.Scan.Spelling
import InfixTree.Proofs.Yard.Invariants
import InfixTree.Tree.Spelling

/-! The tokens a tree is written with. Where an operand of an operator may stand without
parentheses it is a phrase of the rank that the grammar has there, and where it may not
the parentheses make it an atom. So what is written is derived from the grammar, and its
derivation is the tree. -/
namespace InfixTree

namespace Operator

/-- An operation has no parentheses just where it is tight enough for its place. -/
theorem encloses_eq_false_iff {p o : Operator} {side : Side} :
    p.encloses side o = false ↔ (p.operandRank side).floor ≤ o.rank.floor := by
  cases p <;> cases side <;> cases o <;> decide

end Operator

namespace Token

def opening : Token := { Lexeme.leftParenthesis with id := 0 }

def closing : Token := { Lexeme.rightParenthesis with id := 0 }

def enclosed (ts : List Token) : List Token := opening :: (ts ++ [closing])

variable (ts us : List Token) (t : Token)

theorem spelling_cons : Token.spelling (t :: ts) = t.toLexeme.spelling ++ Token.spelling ts :=
  String.join_cons

theorem spelling_append : Token.spelling (ts ++ us) = Token.spelling ts ++ Token.spelling us := by
  unfold Token.spelling
  rw [List.map_append, String.join_append]

theorem spelling_enclosed : Token.spelling (enclosed ts) = "(" ++ Token.spelling ts ++ ")" := by
  rw [enclosed, spelling_cons, spelling_append, String.append_assoc]
  rfl

end Token

/-- The tree has the shape of an expression, and its values fit its kinds. -/
def Tree.Valid (t : Tree) : Prop := t.Shaped (·.toLexeme.Fits)

/-- The rank of the phrase wanted below an operator, or at the top. -/
def rankUnder : Option (Operator × Side) → Rank
  | none => .sum
  | some (p, side) => p.operandRank side

theorem any_encloses_iff {outer : Option (Operator × Side)} {o : Operator} :
    (outer.any fun (p, side) => p.encloses side o) = false ↔
      (rankUnder outer).floor ≤ o.rank.floor := by
  cases outer with
  | none => cases o <;> decide
  | some place => exact Operator.encloses_eq_false_iff

/-- The tokens whose text is the spelling of the tree. -/
def Tree.written : Option (Operator × Side) → Tree → List Token
  | _, leaf t => [t]
  | _, application f a => f :: Token.enclosed (a.written none)
  | outer, operation t a b =>
    match t.operator? with
    | none => t :: Token.enclosed (a.written none)
    | some o =>
      let ts := a.written (some (o, .left)) ++ t :: b.written (some (o, .right))
      if outer.any fun (p, side) => p.encloses side o then Token.enclosed ts else ts

theorem Derives.enclosed {l : List Token} {a : Tree} (h : Derives .sum l a) :
    Derives .atom (Token.enclosed l) a := .group rfl h rfl

namespace Tree

variable {P : Token → Prop} {t : Tree}

/-- What is written is a phrase of the rank wanted in its place, and it means the tree. -/
theorem derives_written (h : t.Shaped P) (outer : Option (Operator × Side)) :
    Derives (rankUnder outer) (t.written outer) t := by
  induction t generalizing outer with
  | leaf t => exact (Derives.operand h.1).loosen_atom
  | application f a ih =>
    obtain ⟨hf, -, ha⟩ := h
    exact (Derives.call hf rfl (ih ha none) rfl).loosen_atom
  | operation t a b iha ihb =>
    obtain ⟨⟨o, ho⟩, -, ha, hb⟩ := h
    have hphrase := Derives.operation (iha ha (some (o, .left))) ho (ihb hb (some (o, .right)))
    simp only [written, Lexeme.operator?_eq_some_iff.2 ho]
    split_ifs with hencloses
    · exact (Derives.enclosed (hphrase.loosen (by cases o <;> decide))).loosen_atom
    · exact hphrase.loosen (any_encloses_iff.1 (eq_false_of_ne_true hencloses))

/-- Valid trees are written in tokens whose values fit. -/
theorem fits_of_mem_written (h : t.Valid) (outer : Option (Operator × Side)) :
    ∀ s ∈ t.written outer, s.toLexeme.Fits := by
  have henclosed : ∀ {ts : List Token}, (∀ s ∈ ts, s.toLexeme.Fits) →
      ∀ s ∈ Token.enclosed ts, s.toLexeme.Fits := by
    intro ts hts
    refine List.forall_mem_cons.2 ⟨rfl, List.forall_mem_append.2 ⟨hts, ?_⟩⟩
    exact List.forall_mem_singleton.2 rfl
  induction t generalizing outer with
  | leaf t => exact List.forall_mem_singleton.2 h.2
  | application f a ih =>
    obtain ⟨-, hf, ha⟩ := h
    exact List.forall_mem_cons.2 ⟨hf, henclosed (ih ha none)⟩
  | operation t a b iha ihb =>
    obtain ⟨⟨o, ho⟩, ht, ha, hb⟩ := h
    have hphrase : ∀ s ∈ a.written (some (o, .left)) ++ t :: b.written (some (o, .right)),
        s.toLexeme.Fits :=
      List.forall_mem_append.2 ⟨iha ha _, List.forall_mem_cons.2 ⟨ht, ihb hb _⟩⟩
    simp only [written, Lexeme.operator?_eq_some_iff.2 ho]
    split_ifs
    · exact henclosed hphrase
    · exact hphrase

/-- The spelling of a valid tree is the text of the tokens it is written with. -/
theorem spelling_written (h : t.Valid) (outer : Option (Operator × Side)) :
    Token.spelling (t.written outer) = t.spellUnder outer := by
  induction t generalizing outer with
  | leaf t =>
    have hleaf : t.toLexeme.spelling = t.value := by
      have hk := h.1
      unfold Lexeme.spelling
      split <;> simp_all [Kind.isOperand]
    simp [written, spellUnder, Token.spelling, hleaf]
  | application f a ih =>
    obtain ⟨hf, -, ha⟩ := h
    have hname : f.toLexeme.spelling = f.value := by simp [Lexeme.spelling, hf]
    simp only [written, spellUnder, Token.spelling_cons, Token.spelling_enclosed, hname, ih ha]
    simp [String.append_assoc]
  | operation t a b iha ihb =>
    obtain ⟨⟨o, ho⟩, ht, ha, hb⟩ := h
    have hvalue : t.value = o.symbol.toString := by simpa [Lexeme.Fits, ho] using ht
    have hsign : t.toLexeme.spelling = o.spaced o.symbol.toString := by
      simp [Lexeme.spelling, ho, hvalue]
    simp only [written, spellUnder, Lexeme.operator?_eq_some_iff.2 ho]
    split_ifs
    · simp only [Token.spelling_enclosed, Token.spelling_append, Token.spelling_cons, hsign,
        iha ha, ihb hb, String.append_assoc]
    · simp only [Token.spelling_append, Token.spelling_cons, hsign, iha ha, ihb hb,
        String.append_assoc]

end Tree

/-- The lexemes of a phrase are read back from their text if their values fit. -/
theorem Spaced.legible {ts : List Token} (h : Spaced ts) (hfits : ∀ t ∈ ts, t.toLexeme.Fits) :
    Legible (ts.map (·.toLexeme)) where
  fits := by simpa using hfits
  joins := by
    rw [List.isChain_map]
    exact h.neighbours.imp fun s t hst =>
      ⟨fun hs ht => hst.1.1 ⟨Kind.endsOperand_of_isOperand hs, ht⟩, hst.2⟩
  apart := by
    rw [List.isChain_map]
    refine h.neighbours.imp fun s t hst hs ht => hst.1.1 ?_
    simp [hs, ht, Kind.endsOperand, Kind.startsOperand]
  last := by
    obtain ⟨e, he, hends⟩ := h.last
    intro l hl hfun
    rw [List.getLast?_map, Option.mem_def.1 he] at hl
    cases hl
    simp [hfun, Kind.endsOperand] at hends

end InfixTree
