import InfixTree.Proofs.Scan.Runs

/-! Texts made of tokens are read again. The lexemes of a text are read back from what they
are spelled as, unless a closing parenthesis comes right before an opening one, where
reading would write a multiplication. That happens only if a character outside of the
notation stood between the two: reading writes the multiplication in the text itself
where nothing did. -/
namespace InfixTree

/-- The second one does not open a group right where the first one closes one. -/
def Lexeme.Parted (s t : Lexeme) : Prop := s.kind = .rightParenthesis → t.kind ≠ .leftParenthesis

namespace Scan

open Text

variable {s : Scan} {c : Char} {ls ms : List Lexeme}

/-- What has been found of a text that is all notation: if it ends in a closing parenthesis
and nothing is held, that was the last character. -/
structure Parts (s : Scan) (ls : List Lexeme) : Prop where
  parted : ls.IsChain Lexeme.Parted
  single : s.letters = [] ∨ s.digits = []
  last : ∀ l ∈ ls.getLast?, l.kind = .rightParenthesis → s.letters = [] → s.digits = [] →
    s.last = some ')'

/-- Only an opening parenthesis can be wrong after what has been found. -/
theorem parted_append (hls : ls.IsChain Lexeme.Parted) (hms : ∀ m ∈ ms, m.kind ≠ .leftParenthesis) :
    (ls ++ ms).IsChain Lexeme.Parted := by
  induction ms using List.reverseRecOn with
  | nil => simpa using hls
  | append_singleton ms m ih =>
    obtain ⟨hms, hm⟩ := List.forall_mem_append.1 hms
    rw [← List.append_assoc]
    refine List.isChain_append.2 ⟨ih hms, by simp, fun l _ m' hm' _ => ?_⟩
    cases hm'
    exact hm m (by simp)

/-- Variables and the products between them. -/
theorem forall_mem_variables {P : Lexeme → Prop} (hvariable : ∀ c, P (.ofLetter c))
    (htimes : P (.ofOperator .multiply)) (cs : List Char) :
    ∀ l ∈ (cs.map Lexeme.ofLetter).intersperse (.ofOperator .multiply), P l := by
  induction cs with
  | nil => simp
  | cons c cs ih =>
    cases cs with
    | nil => simpa using hvariable c
    | cons d ds =>
      exact List.forall_mem_cons.2 ⟨hvariable c, List.forall_mem_cons.2 ⟨htimes, ih⟩⟩

theorem not_leftParenthesis_of_mem_pending :
    ∀ l ∈ s.pending, l.kind ≠ .leftParenthesis := by
  by_cases hlet : s.letters = []
  · by_cases hdig : s.digits = []
    · simp [pending, flush_nothing hlet hdig]
    · simp [pending, flush_digits hlet hdig, Lexeme.ofDigits]
  · rw [pending, flush_letters hlet, lexemesOf_variables]
    exact forall_mem_variables (by simp [Lexeme.ofLetter]) (by simp [Lexeme.ofOperator]) _

theorem Parts.numeral (h : s.Parts ls) (hc : isNumeral c) :
    (s.read c).1.Parts (ls ++ lexemesOf (s.read c).2) := by
  have hfound : ∀ l ∈ lexemesOf (s.read c).2, l.kind ≠ .leftParenthesis := by
    rw [read_digit (isNumeral_iff.1 hc)]
    cases hlet : s.letters with
    | nil => simp
    | cons d ds =>
      rw [lexemesOf_factors (List.cons_ne_nil d ds)]
      refine List.forall_mem_append.2 ⟨forall_mem_variables ?_ ?_ _, ?_⟩ <;>
        simp [Lexeme.ofLetter, Lexeme.ofOperator]
  refine ⟨parted_append h.parted hfound, ?_, ?_⟩
  · rw [read_digit (isNumeral_iff.1 hc)]
    exact .inl rfl
  · rw [read_digit (isNumeral_iff.1 hc)]
    intro l _ _ _ hdig
    simp at hdig

theorem Parts.letter (h : s.Parts ls) (hc : c.isAlpha) :
    (s.read c).1.Parts (ls ++ lexemesOf (s.read c).2) := by
  have hfound : ∀ l ∈ lexemesOf (s.read c).2, l.kind ≠ .leftParenthesis := by
    rw [read_letter (Glyph.ofChar_eq_letter_iff.2 hc)]
    split_ifs <;> simp [Lexeme.ofDigits, Lexeme.ofOperator]
  refine ⟨parted_append h.parted hfound, ?_, ?_⟩
  · rw [read_letter (Glyph.ofChar_eq_letter_iff.2 hc)]
    exact .inr rfl
  · rw [read_letter (Glyph.ofChar_eq_letter_iff.2 hc)]
    intro l _ _ hlet
    simp at hlet

theorem Parts.sign {l : Lexeme} (h : s.Parts ls) (hl : Lexeme.ofSign? c = some l) (hc : c ≠ '(') :
    (s.read c).1.Parts (ls ++ lexemesOf (s.read c).2) := by
  have hfound : lexemesOf (s.endRun l).2 = s.pending ++ [l] := by
    simp [endRun, pending]
  rw [read_sign hl hc, hfound]
  refine ⟨?_, .inl (flush_empties h.single).1, ?_⟩
  · refine parted_append h.parted (List.forall_mem_append.2 ⟨?_, ?_⟩)
    · exact not_leftParenthesis_of_mem_pending
    · simpa [(kind_of_ofSign? hl).1] using hc
  · intro m hm hclose _ _
    rw [← List.append_assoc, List.getLast?_concat, Option.mem_some_iff] at hm
    subst hm
    exact congrArg some ((kind_of_ofSign? hl).2.1 hclose)

/-- Before an opening parenthesis something is found, or nothing was held and the last
character was no closing one. -/
theorem lexemesOf_openGroup (s : Scan) : ∃ ms, lexemesOf s.openGroup.2 = ms ++ [.leftParenthesis] ∧
    (∀ m ∈ ms, m.kind ≠ .leftParenthesis ∧ m.kind ≠ .rightParenthesis) ∧
    (ms = [] → s.letters = [] ∧ s.digits = [] ∧ s.last ≠ some ')') ∧ s.openGroup.1.letters = [] := by
  unfold openGroup
  split_ifs with hlet hdig hlast
  · exact ⟨[.ofName s.letters], rfl, by simp [Lexeme.ofName], by simp, rfl⟩
  · refine ⟨[.ofDigits s.digits, .ofOperator .multiply], rfl, ?_, by simp, ?_⟩
    · simp [Lexeme.ofDigits, Lexeme.ofOperator]
    · simpa using hlet
  · exact ⟨[.ofOperator .multiply], rfl, by simp [Lexeme.ofOperator], by simp, by simpa using hlet⟩
  · exact ⟨[], rfl, by simp, fun _ => ⟨by simpa using hlet, by simpa using hdig, hlast⟩,
      by simpa using hlet⟩

theorem Parts.opening (h : s.Parts ls) :
    (s.read '(').1.Parts (ls ++ lexemesOf (s.read '(').2) := by
  obtain ⟨ms, hfound, hms, hnil, hlet⟩ := lexemesOf_openGroup s
  rw [read_open, hfound, ← List.append_assoc]
  refine ⟨?_, .inl hlet, ?_⟩
  · refine List.isChain_append.2 ⟨parted_append h.parted fun m hm => (hms m hm).1, by simp, ?_⟩
    intro l hl m _ hclose
    exfalso
    rw [List.getLast?_append, Option.mem_def, Option.or_eq_some_iff] at hl
    rcases hl with hl | ⟨hempty, hl⟩
    · exact (hms l (List.mem_of_getLast? hl)).2 hclose
    · obtain ⟨hlet, hdig, hlast⟩ := hnil (List.getLast?_eq_none_iff.1 hempty)
      exact hlast (h.last l hl hclose hlet hdig)
  · intro l hl hclose
    rw [List.getLast?_concat, Option.mem_some_iff] at hl
    subst hl
    cases hclose

theorem Parts.readAll {cs : List Char} (h : s.Parts ls) (hcs : ∀ c ∈ cs, isNotation c) :
    (s.readAll cs).1.Parts (ls ++ lexemesOf (s.readAll cs).2) := by
  induction cs generalizing s ls with
  | nil => simpa [Scan.readAll] using h
  | cons c cs ih =>
    obtain ⟨hc, hcs⟩ := List.forall_mem_cons.1 hcs
    have hread : (s.read c).1.Parts (ls ++ lexemesOf (s.read c).2) := by
      rcases isNotation_cases hc with hnum | hletter | ⟨l, hl⟩
      · exact h.numeral hnum
      · exact h.letter hletter
      · by_cases hopen : c = '('
        · exact hopen ▸ h.opening
        · exact h.sign hl hopen
    have := ih hread hcs
    rw [Scan.readAll, lexemesOf_append, ← List.append_assoc]
    exact this

end Scan

/-- Where a text is all notation, a multiplication is read between any two groups. -/
theorem lexemes_parted {text : String} (h : ∀ c ∈ Glyph.normalize text.toList, Text.isNotation c) :
    (lexemes text).IsChain Lexeme.Parted := by
  have hstart : Scan.Parts {} [] := ⟨by simp, .inl rfl, by simp⟩
  rw [lexemes_eq]
  exact Scan.parted_append (by simpa using (hstart.readAll h).parted)
    Scan.not_leftParenthesis_of_mem_pending

/-- The tokens of a text are parted just if its lexemes are. -/
theorem isChain_tokenize_iff (text : String) :
    ((tokenize text).IsChain fun p q => p.kind = .rightParenthesis → q.kind ≠ .leftParenthesis) ↔
      (lexemes text).IsChain Lexeme.Parted := by
  rw [← map_toLexeme_tokenize, List.isChain_map]
  rfl

theorem spelling_tokenize (text : String) : Token.spelling (tokenize text) =
    String.join ((lexemes text).map (·.spelling)) := by
  rw [Token.spelling, ← map_toLexeme_tokenize, List.map_map]
  rfl

/-- A text that is made of tokens is all notation. -/
theorem lexemes_spelling_parted (text : String) :
    (lexemes (Token.spelling (tokenize text))).IsChain Lexeme.Parted := by
  refine lexemes_parted fun c hc => ?_
  rw [spelling_tokenize, normalize_spellings fun l hl => fits_of_mem_lexemes hl] at hc
  obtain ⟨l, hl, hc⟩ := List.mem_flatMap.1 hc
  exact Text.isNotation_iff.2 ((fits_of_mem_lexemes hl).not_foreign c hc)

theorem legible_of_parted {text : String} (h : (lexemes text).IsChain Lexeme.Parted) :
    Legible (lexemes text) where
  fits := fun _ => fits_of_mem_lexemes
  joins := lexemes_joins text
  apart := h
  last := lexemes_last text

/-- The tokens of a text are read back from their own text just if no closing parenthesis
among them comes right before an opening one. -/
theorem tokenize_spelling_eq_iff (text : String) :
    tokenize (Token.spelling (tokenize text)) = tokenize text ↔
      (lexemes text).IsChain Lexeme.Parted := by
  constructor
  · intro h
    have hlexemes := congrArg (List.map (·.toLexeme)) h
    rw [map_toLexeme_tokenize, map_toLexeme_tokenize] at hlexemes
    exact hlexemes ▸ lexemes_spelling_parted text
  · intro h
    rw [tokenize, spelling_tokenize, (legible_of_parted h).lexemes_spelling, tokenize]

theorem isNotation_of_mem_normalize {cs : List Char}
    (h : ∀ c ∈ cs, ¬ Text.isBlank c → Text.isNotation c ∨ c = '·' ∨ c = ':') :
    ∀ c ∈ Glyph.normalize cs, Text.isNotation c := by
  intro d hd
  obtain ⟨c, hc, rfl⟩ := List.mem_map.1 hd
  obtain ⟨hmem, hblank⟩ := List.mem_filter.1 hc
  rcases h c hmem (by simpa using hblank) with hc | rfl | rfl
  · rwa [Glyph.standard_of_not_foreign (Text.isNotation_iff.1 hc)]
  · rfl
  · rfl

/-- The tokens of a text are read back from their own text, with the same ids, just if no
closing parenthesis among them comes right before an opening one; and none does in a text
whose characters are blanks, those of the notation or the two alternative signs. -/
theorem tokenize_spelling_iff (text : String) :
    (tokenize (Token.spelling (tokenize text)) = tokenize text ↔
      (tokenize text).IsChain fun p q =>
        p.kind = .rightParenthesis → q.kind ≠ .leftParenthesis) ∧
    ((∀ c ∈ text.toList, ¬ Text.isBlank c → Text.isNotation c ∨ c = '·' ∨ c = ':') →
      ((tokenize text).IsChain fun p q =>
        p.kind = .rightParenthesis → q.kind ≠ .leftParenthesis) ∧
      tokenize (Token.spelling (tokenize text)) = tokenize text) := by
  rw [isChain_tokenize_iff, tokenize_spelling_eq_iff]
  refine ⟨.rfl, fun h => ?_⟩
  have hparted := lexemes_parted (isNotation_of_mem_normalize h)
  exact ⟨hparted, hparted⟩

/-- The product `2x·(a) (b)` is read back with its multiplications, but in `(a)#(b)` the two
groups part only because of the character between them. -/
theorem tokenize_spelling_iff_product :
    (∀ c ∈ "2x·(a) (b)".toList, ¬ Text.isBlank c → Text.isNotation c ∨ c = '·' ∨ c = ':') ∧
      Token.spelling (tokenize "2x·(a) (b)") = "2 * x * (a) * (b)" ∧
      tokenize (Token.spelling (tokenize "2x·(a) (b)")) = tokenize "2x·(a) (b)" ∧
      Token.spelling (tokenize "(a)#(b)") = "(a)(b)" ∧
      tokenize (Token.spelling (tokenize "(a)#(b)")) ≠ tokenize "(a)#(b)" := by
  have hchars : "2x·(a) (b)".toList.all fun c =>
      Text.isBlank c || Text.isNotation c || c = '·' || c = ':' := by decide
  have hall : ∀ c ∈ "2x·(a) (b)".toList,
      ¬ Text.isBlank c → Text.isNotation c ∨ c = '·' ∨ c = ':' := by
    intro c hc hblank
    have hchar := List.all_eq_true.1 hchars c hc
    simpa [hblank, or_assoc] using hchar
  refine ⟨hall, rfl, ((tokenize_spelling_iff _).2 hall).2, rfl, fun h => ?_⟩
  have hparted := (tokenize_spelling_iff _).1.1 h
  revert hparted
  decide

end InfixTree
