import InfixTree.Proofs.Regeneration

/-! Trees are spelled in order. What a tree is written with is, but for the parentheses, its
tokens from left to right, each operator between its operands and each function before its
argument. The spelling of a valid tree is the text of just these tokens, and reading it adds
and loses none, so it does not matter whether the tree is spelled or its tokens are. -/
namespace InfixTree

/-- Parentheses are no part of a tree. -/
def Kind.isParenthesis : Kind → Bool
  | .leftParenthesis | .rightParenthesis => true
  | _ => false

theorem Kind.isParenthesis_of_isOperand {k : Kind} (h : k.isOperand) : k.isParenthesis = false := by
  cases k <;> first | rfl | cases h

/-- The list without its parentheses. -/
def Token.bare (ts : List Token) : List Token := ts.filter (!·.kind.isParenthesis)

namespace Token

variable {ts us : List Token} {t : Token}

theorem bare_append : bare (ts ++ us) = bare ts ++ bare us := List.filter_append ts us

theorem bare_cons (h : t.kind.isParenthesis = false) : bare (t :: ts) = t :: bare ts := by
  simp [bare, h]

theorem bare_enclosed : bare (enclosed ts) = bare ts := by
  simp [bare, enclosed, opening, closing, Lexeme.leftParenthesis, Lexeme.rightParenthesis,
    Kind.isParenthesis]

theorem map_toLexeme_bare (h : ts.map (·.toLexeme) = us.map (·.toLexeme)) :
    (bare ts).map (·.toLexeme) = (bare us).map (·.toLexeme) := by
  have hthrough : ∀ l : List Token, (bare l).map (·.toLexeme) =
      (l.map (·.toLexeme)).filter (!·.kind.isParenthesis) := fun l => by
    rw [List.filter_map]
    rfl
  rw [hthrough, hthrough, h]

end Token

namespace Tree

/-- The tokens of a tree from left to right, a function before its argument. -/
def inorder : Tree → List Token
  | leaf t => [t]
  | application f a => f :: a.inorder
  | operation t l r => l.inorder ++ t :: r.inorder

variable {P : Token → Prop} {t : Tree}

/-- A tree is written in order, whatever parentheses its place asks for. -/
theorem bare_written (h : t.Shaped P) (outer : Option (Operator × Side)) :
    Token.bare (t.written outer) = t.inorder := by
  induction t generalizing outer with
  | leaf t => exact Token.bare_cons (Kind.isParenthesis_of_isOperand h.1)
  | application f a ih =>
    obtain ⟨hf, -, ha⟩ := h
    have hname : f.kind.isParenthesis = false := by rw [hf]; rfl
    rw [written, Token.bare_cons hname, Token.bare_enclosed, ih ha, inorder]
  | operation t l r ihl ihr =>
    obtain ⟨⟨o, ho⟩, -, hl, hr⟩ := h
    have hsign : t.kind.isParenthesis = false := by rw [ho]; rfl
    have hphrase : Token.bare (l.written (some (o, .left)) ++ t :: r.written (some (o, .right))) =
        l.inorder ++ t :: r.inorder := by
      rw [Token.bare_append, Token.bare_cons hsign, ihl hl, ihr hr]
    simp only [written, Lexeme.operator?_eq_some_iff.2 ho]
    split_ifs
    · rw [Token.bare_enclosed, hphrase, inorder]
    · rw [hphrase, inorder]

theorem bare_tokenize_spelling (h : t.Valid) :
    (Token.bare (tokenize t.spelling)).map (·.toLexeme) = t.inorder.map (·.toLexeme) := by
  rw [Token.map_toLexeme_bare (map_toLexeme_tokenize_spelling h), bare_written h]

end Tree

/-- The spelling of a valid tree, hence of every tree that is read from a text, is the text of
its own tokens, and without the parentheses these are the tokens of the tree in order. -/
theorem spelling_inorder : (∀ t : Tree, t.Valid →
      Token.spelling (tokenize t.spelling) = t.spelling ∧
        (Token.bare (tokenize t.spelling)).map (·.toLexeme) = t.inorder.map (·.toLexeme)) ∧
    ∀ text t, parseText text = .ok t →
      Token.spelling (tokenize t.spelling) = t.spelling ∧
        (Token.bare (tokenize t.spelling)).map (·.toLexeme) = t.inorder.map (·.toLexeme) := by
  have hvalid : ∀ t : Tree, t.Valid → Token.spelling (tokenize t.spelling) = t.spelling ∧
      (Token.bare (tokenize t.spelling)).map (·.toLexeme) = t.inorder.map (·.toLexeme) :=
    fun t ht => ⟨spelling_tokenize_spelling ht, t.bare_tokenize_spelling ht⟩
  exact ⟨hvalid, fun text t h => hvalid t (valid_of_parseText h)⟩

/-- The power `(2-f(x))^y` needs a pair of parentheses besides that of the call, and the tree of
`2(a)` is spelled without the pair it was read with. -/
theorem spelling_inorder_power :
    let two : Token := ⟨.ofDigits ['2'], 1⟩
    let minus : Token := ⟨.ofOperator .subtract, 2⟩
    let f : Token := ⟨.ofName ['f'], 3⟩
    let x : Token := ⟨.ofLetter 'x', 4⟩
    let power : Token := ⟨.ofOperator .power, 5⟩
    let y : Token := ⟨.ofLetter 'y', 6⟩
    let tree := Tree.operation power
      (.operation minus (.leaf two) (.application f (.leaf x))) (.leaf y)
    tree.Valid ∧ tree.spelling = "(2 - f(x))^y" ∧
      Token.spelling (tokenize "(2 - f(x))^y") = "(2 - f(x))^y" ∧
      (Token.bare (tokenize "(2 - f(x))^y")).map (·.toLexeme) =
        [two, minus, f, x, power, y].map (·.toLexeme) ∧
      ∃ t, parseText "2(a)" = .ok t ∧ t.spelling = "2 * a" ∧
        Token.spelling (tokenize t.spelling) = t.spelling := by
  intro two minus f x power y tree
  have hvalid : tree.Valid := by
    refine ⟨⟨_, rfl⟩, Lexeme.fits_ofOperator _, ⟨⟨_, rfl⟩, Lexeme.fits_ofOperator _, ?_, ?_⟩, ?_⟩
    · exact ⟨rfl, Lexeme.fits_ofDigits (by decide) (List.forall_mem_singleton.2 (.inl rfl))⟩
    · exact ⟨rfl, Lexeme.fits_ofName (by decide) (List.forall_mem_singleton.2 (by decide)), rfl,
        Lexeme.fits_ofLetter (by decide)⟩
    · exact ⟨rfl, Lexeme.fits_ofLetter (by decide)⟩
  obtain ⟨hspelling, hbare⟩ := spelling_inorder.1 tree hvalid
  obtain ⟨t, ht⟩ : ∃ t, parseText "2(a)" = .ok t := ⟨_, rfl⟩
  have hrespell : respell "2(a)" = .ok "2 * a" := rfl
  rw [respell, ht] at hrespell
  exact ⟨hvalid, rfl, hspelling, hbare, t, ht, Except.ok.inj hrespell,
    (spelling_inorder.2 _ _ ht).1⟩

end InfixTree
