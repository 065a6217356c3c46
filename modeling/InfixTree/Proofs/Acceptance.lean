import InfixTree.ParseText
import InfixTree.Proofs.Scan.Adjacency
import InfixTree.Proofs.Yard.Completeness
import InfixTree.Proofs.Yard.Soundness

/-! Which lists and which texts are expressions. Where operands are kept apart and no pair
of parentheses is empty, parsing and the grammar agree. Reading a text writes most of the
multiplications that it leaves out, but not the one between a closing parenthesis and an
operand; and it keeps empty pairs of parentheses. Parsing may accept a text with one of
the two that no derivation has. -/
namespace InfixTree

/-! ### Lists -/

theorem exists_touching_of_not_apart {l : List Token} (h : ¬ l.IsChain Token.Apart) :
    ∃ before p q after, l = before ++ p :: q :: after ∧
      ((p.kind.endsOperand ∧ q.kind.startsOperand) ∨
        (p.kind = .leftParenthesis ∧ q.kind = .rightParenthesis)) := by
  rw [List.isChain_iff_forall_rel_of_append_cons_cons] at h
  push Not at h
  obtain ⟨p, q, before, after, hl, hpq⟩ := h
  refine ⟨before, p, q, after, hl, ?_⟩
  unfold Token.Apart at hpq
  tauto

/-- The boundary of acceptance: a list whose operands are kept apart is parsed just if it is
derived, so one that is parsed without being derived has two operands side by side or an
empty pair of parentheses. -/
theorem parse_iff_derivable (l : List Token) :
    (l.IsChain Token.Apart → ((∃ t, parse l = .ok t) ↔ Derivable l)) ∧
      ((∃ t, parse l = .ok t) → ¬ Derivable l → ∃ before p q after, l = before ++ p :: q :: after ∧
        ((p.kind.endsOperand ∧ q.kind.startsOperand) ∨
          (p.kind = .leftParenthesis ∧ q.kind = .rightParenthesis))) := by
  constructor
  · intro hapart
    constructor
    · rintro ⟨t, ht⟩
      exact derivable_of_parse ht hapart
    · rintro ⟨a, ha⟩
      exact ⟨a, (Yard.readable_of_derives ha).parse_eq⟩
  · rintro ⟨t, ht⟩ hnot
    exact exists_touching_of_not_apart fun hapart => hnot (derivable_of_parse ht hapart)

/-- The list `f((x))+y` is derived because it is parsed, and `x y +` is parsed only because
two operands stand side by side in it. -/
theorem parse_iff_derivable_touching :
    let f : Token := ⟨.ofName ['f'], 1⟩
    let p : Token := ⟨.leftParenthesis, 2⟩
    let x : Token := ⟨.ofLetter 'x', 3⟩
    let q : Token := ⟨.rightParenthesis, 4⟩
    let plus : Token := ⟨.ofOperator .add, 5⟩
    let y : Token := ⟨.ofLetter 'y', 6⟩
    [f, p, p, x, q, q, plus, y].IsChain Token.Apart ∧ Derivable [f, p, p, x, q, q, plus, y] ∧
      (∃ t, parse [x, y, plus] = .ok t) ∧ ¬ Derivable [x, y, plus] ∧
      ∃ before s t after, [x, y, plus] = before ++ s :: t :: after ∧
        ((s.kind.endsOperand ∧ t.kind.startsOperand) ∨
          (s.kind = .leftParenthesis ∧ t.kind = .rightParenthesis)) := by
  intro f p x q plus y
  have hapart : [f, p, p, x, q, q, plus, y].IsChain Token.Apart := by decide
  have hparse : ∃ t, parse [x, y, plus] = .ok t := ⟨_, rfl⟩
  have hnot : ¬ Derivable [x, y, plus] := by
    rintro ⟨a, ha⟩
    obtain ⟨t, ht, hends⟩ := ha.spaced.last
    cases ht
    exact absurd hends (by decide)
  exact ⟨hapart, ((parse_iff_derivable _).1 hapart).1 ⟨_, rfl⟩, hparse, hnot,
    (parse_iff_derivable _).2 hparse hnot⟩

/-! ### Texts -/

/-- A closing parenthesis does not touch the operand after it, nor the parenthesis that
opened its group. -/
def Token.Separated (s t : Token) : Prop :=
  (s.kind = .rightParenthesis → ¬ t.kind.startsOperand) ∧
    (s.kind = .leftParenthesis → t.kind ≠ .rightParenthesis)

theorem Token.apart_iff {s t : Token} (h : s.toLexeme.Joins t.toLexeme) :
    s.Apart t ↔ s.Separated t := by
  have hends : s.kind.endsOperand ↔ s.kind.isOperand ∨ s.kind = .rightParenthesis := by
    cases s.kind <;> simp [Kind.endsOperand, Kind.isOperand]
  unfold Token.Apart Token.Separated
  rw [hends]
  have := h.1
  tauto

theorem isChain_apart_iff (text : String) :
    (tokenize text).IsChain Token.Apart ↔ (tokenize text).IsChain Token.Separated := by
  have hjoins := List.isChain_iff_getElem.1 (tokenize_joins text)
  rw [List.isChain_iff_getElem, List.isChain_iff_getElem]
  exact forall₂_congr fun i hi => Token.apart_iff (hjoins i hi)

theorem parseText_eq_ok {text : String} {t : Tree} :
    parseText text = .ok t ↔ parse (tokenize text) = .ok t := by
  unfold parseText
  cases parse (tokenize text) <;> simp [Except.mapError]

/-- A text is derived from the grammar just if it is parsed and its parentheses are kept
apart. -/
theorem derivable_tokenize_iff (text : String) : Derivable (tokenize text) ↔
    (∃ t, parseText text = .ok t) ∧ (tokenize text).IsChain Token.Separated := by
  rw [← isChain_apart_iff]
  constructor
  · rintro ⟨a, ha⟩
    exact ⟨⟨a, parseText_eq_ok.2 (Yard.readable_of_derives ha).parse_eq⟩, ha.spaced.apart⟩
  · rintro ⟨⟨t, ht⟩, hapart⟩
    exact derivable_of_parse (parseText_eq_ok.1 ht) hapart

/-- An operator that ends a text may find its operands before it. -/
theorem parseText_trailing_operator : (∃ t, parseText "(2)3*" = .ok t) ∧
    ¬ Derivable (tokenize "(2)3*") := by
  refine ⟨⟨_, rfl⟩, ?_⟩
  rintro ⟨a, ha⟩
  obtain ⟨t, ht, hends⟩ := ha.spaced.last
  have : (tokenize "(2)3*").getLast? = some (.ofOperator 5 .multiply) := by decide
  rw [this] at ht
  cases ht
  exact absurd hends (by decide)

end InfixTree
