import InfixTree.Proofs.Scan.Spelling

/-! Which lists are the tokens of a text. Their values fit, a function stands right before its
group, and the multiplications that a text may leave out are there, save for those after a
group. Such a list is read from its values with a hash mark after each: the marks are passed
over, but they keep a closing parenthesis from the one that opens next. -/
namespace InfixTree

/-- No multiplication that reading writes is left out between the two: a group does not come
right after an operand, nor does another operand or a function. -/
def Token.Explicit (s t : Token) : Prop :=
  (t.kind = .leftParenthesis → ¬ s.kind.isOperand) ∧
    (s.kind.isOperand → ¬ t.kind.isOperand ∧ t.kind ≠ .function)

instance : DecidableRel Token.Explicit := fun _ _ => inferInstanceAs (Decidable (_ ∧ _))

theorem Kind.startsOperand_iff {k : Kind} :
    k.startsOperand ↔ k.isOperand ∨ k = .function ∨ k = .leftParenthesis := by
  cases k <;> simp [startsOperand, isOperand]

theorem Token.joins_iff {s t : Token} : s.toLexeme.Joins t.toLexeme ↔
    s.Explicit t ∧ (s.kind = .function → t.kind = .leftParenthesis) := by
  unfold Lexeme.Joins Explicit
  rw [Kind.startsOperand_iff]
  tauto

/-- The values of lexemes with a hash mark after each. -/
def Lexeme.marked (ls : List Lexeme) : String := String.join (ls.map (·.value ++ "#"))

theorem lexemes_marked {ls : List Lexeme} (hfits : ∀ l ∈ ls, l.Fits)
    (hjoins : ls.IsChain Lexeme.Joins) (hlast : ∀ l ∈ ls.getLast?, l.kind ≠ .function) :
    lexemes (Lexeme.marked ls) = ls := by
  have hmark : Glyph.normalize (Lexeme.marked ls).toList =
      ls.flatMap fun l => l.value.toList ++ ['#'] := by
    refine normalize_join fun l hl => ?_
    rw [String.toList_append, Glyph.normalize_append,
      Glyph.normalize_of_not_foreign (hfits l hl).not_foreign]
    rfl
  have hawaits : Scan.Awaits {} none (fun _ => ['#']) ls := {
    holds := .nothing rfl rfl
    foreign := fun _ => List.forall_mem_singleton.2 rfl
    fits := hfits
    joins := hjoins
    apart := hjoins.imp fun _ _ _ _ _ => List.cons_ne_nil _ _
    open_apart := by simp
    last := hlast }
  rw [lexemes_eq, hmark]
  exact hawaits.readAll

theorem tokenize_marked {ts : List Token} (hids : ts.map (·.id) = List.range' 1 ts.length)
    (hfits : ∀ t ∈ ts, t.toLexeme.Fits) (hcall : FunctionsCall ts)
    (hexplicit : ts.IsChain Token.Explicit) :
    tokenize (Lexeme.marked (ts.map (·.toLexeme))) = ts := by
  obtain ⟨hchain, hlast⟩ := functionsCall_iff.1 hcall
  have hjoins : (ts.map (·.toLexeme)).IsChain Lexeme.Joins := by
    rw [List.isChain_map, List.isChain_iff_getElem]
    intro i hi
    exact Token.joins_iff.2
      ⟨List.isChain_iff_getElem.1 hexplicit i hi, List.isChain_iff_getElem.1 hchain i hi⟩
  have hname : ∀ l ∈ (ts.map (·.toLexeme)).getLast?, l.kind ≠ .function := by
    intro l hl
    rw [List.getLast?_map, Option.mem_def, Option.map_eq_some_iff] at hl
    obtain ⟨t, ht, rfl⟩ := hl
    exact hlast t ht
  rw [tokenize, lexemes_marked (by simpa using hfits) hjoins hname, numberFrom_map_toLexeme hids]

/-- A list is made of the tokens of a text just if its ids count from one, its values fit their
kinds, every function is followed by its group, and no operand is followed by a group, a
function or another operand. -/
theorem exists_tokenize_iff (ts : List Token) : (∃ text, tokenize text = ts) ↔
    ts.map (·.id) = List.range' 1 ts.length ∧ (∀ t ∈ ts, t.toLexeme.Fits) ∧
      FunctionsCall ts ∧ ts.IsChain Token.Explicit := by
  constructor
  · rintro ⟨text, rfl⟩
    exact ⟨map_id_tokenize text, fun _ => fits_of_mem_tokenize, functionsCall_tokenize text,
      (tokenize_joins text).imp fun _ _ h => (Token.joins_iff.1 h).1⟩
  · rintro ⟨hids, hfits, hcall, hexplicit⟩
    exact ⟨_, tokenize_marked hids hfits hcall hexplicit⟩

/-- Two groups side by side are the tokens of a text, but not of the one they spell. -/
example : Lexeme.marked (lexemes "(a)#(b)") = "(#a#)#(#b#)#" ∧
    tokenize "(#a#)#(#b#)#" = tokenize "(a)#(b)" ∧ tokenize "(a)(b)" ≠ tokenize "(a)#(b)" := by
  decide

end InfixTree
