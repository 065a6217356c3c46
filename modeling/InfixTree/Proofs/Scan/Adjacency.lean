import InfixTree.Proofs.Grammar
import InfixTree.Tokenize

/-! What the lexemes of a text look like. Their values fit their kinds, a function stands
right before its group, and an operand is never followed by another one, for reading
writes the multiplication that is missing. What is found at each character has these
properties by itself and ends in neither an operand nor a function, so the findings can
be put one after the other. -/
namespace InfixTree

namespace Lexeme

/-- The value is one that a text can give to a lexeme of the kind. -/
def Fits (l : Lexeme) : Prop :=
  match l.kind with
  | .literal => l.value ≠ "" ∧ ∀ c ∈ l.value.toList, c.isDigit ∨ c = '.'
  | .variable => ∃ c : Char, c.isAlpha ∧ l.value = c.toString
  | .operator o => l.value = o.symbol.toString
  | .function => l.value ≠ "" ∧ ∀ c ∈ l.value.toList, c.isAlpha
  | .leftParenthesis => l.value = "("
  | .rightParenthesis => l.value = ")"
  | .comma => l.value = ","

/-- The second lexeme of a text can follow the first one. -/
def Joins (s t : Lexeme) : Prop :=
  (s.kind.isOperand → ¬ t.kind.startsOperand) ∧ (s.kind = .function → t.kind = .leftParenthesis)

theorem fits_ofOperator (o : Operator) : (ofOperator o).Fits := rfl

theorem fits_ofDigits {cs : List Char} (hne : cs ≠ []) (h : ∀ c ∈ cs, c.isDigit ∨ c = '.') :
    (ofDigits cs).Fits := by
  simp only [Fits, ofDigits, String.toList_ofList]
  exact ⟨by simpa using hne, h⟩

theorem fits_ofLetter {c : Char} (h : c.isAlpha) : (ofLetter c).Fits := ⟨c, h, rfl⟩

theorem fits_ofName {cs : List Char} (hne : cs ≠ []) (h : ∀ c ∈ cs, c.isAlpha) :
    (ofName cs).Fits := by
  simp only [Fits, ofName, String.toList_ofList]
  exact ⟨by simpa using hne, h⟩

/-- Only operands and functions have values of their own. -/
theorem Fits.eq_of_kind {l m : Lexeme} (hl : l.Fits) (hm : m.Fits) (hkind : l.kind = m.kind)
    (hop : ¬ m.kind.isOperand) (hfun : m.kind ≠ .function) : l = m := by
  obtain ⟨kind, value⟩ := l
  obtain ⟨_, value'⟩ := m
  cases hkind
  cases kind with
  | literal | «variable» => exact absurd rfl hop
  | function => exact absurd rfl hfun
  | operator | leftParenthesis | rightParenthesis | comma =>
    have hvalue : value = _ := hl
    have hvalue' : value' = _ := hm
    rw [hvalue, hvalue']

/-- Numbers are not spelled with letters. -/
theorem Fits.literal_ne_variable {l m : Lexeme} (hl : l.Fits) (hm : m.Fits)
    (hkl : l.kind = .literal) (hkm : m.kind = .variable) : l.value ≠ m.value := by
  unfold Fits at hl hm
  rw [hkl] at hl
  rw [hkm] at hm
  obtain ⟨c, hc, hvalue⟩ := hm
  intro heq
  rw [heq, hvalue] at hl
  exact Glyph.not_digit_of_isAlpha hc (hl.2 c (by simp))

/-- Two operands of one value are of one kind. -/
theorem Fits.operand_kind_eq {l m : Lexeme} (hl : l.Fits) (hm : m.Fits)
    (hkl : l.kind.isOperand) (hkm : m.kind.isOperand) (hvalue : l.value = m.value) :
    l.kind = m.kind := by
  rcases Kind.isOperand_cases hkl with hl' | hl' <;> rcases Kind.isOperand_cases hkm with hm' | hm'
  · rw [hl', hm']
  · exact absurd hvalue (hl.literal_ne_variable hm hl' hm')
  · exact absurd hvalue.symm (hm.literal_ne_variable hl hm' hl')
  · rw [hl', hm']

/-- Two operators of one symbol are one. -/
theorem Fits.operator_kind_eq {o o' : Operator} {l m : Lexeme} (hl : l.Fits) (hm : m.Fits)
    (hkl : l.kind = .operator o) (hkm : m.kind = .operator o') (hvalue : l.value = m.value) :
    l.kind = m.kind := by
  unfold Fits at hl hm
  rw [hkl] at hl
  rw [hkm] at hm
  have hsymbol : o.symbol.toString = o'.symbol.toString := hl.symm.trans (hvalue.trans hm)
  rw [hkl, hkm]
  cases o <;> cases o' <;> first | rfl | exact absurd hsymbol (by decide)

end Lexeme

/-- Findings that other findings can be put after. -/
structure Tidy (ls : List Lexeme) : Prop where
  fits : ∀ l ∈ ls, l.Fits
  joins : ls.IsChain Lexeme.Joins
  last : ∀ l ∈ ls.getLast?, ¬ l.kind.isOperand ∧ l.kind ≠ .function

namespace Tidy

variable {ls ms : List Lexeme} {l : Lexeme}

theorem nil : Tidy [] := ⟨by simp, by simp, by simp⟩

theorem singleton (hl : l.Fits) (h : ¬ l.kind.isOperand ∧ l.kind ≠ .function) : Tidy [l] :=
  ⟨by simpa using hl, by simp, by simpa using h⟩

theorem joins_append (hls : Tidy ls) (hms : ms.IsChain Lexeme.Joins) :
    (ls ++ ms).IsChain Lexeme.Joins := by
  refine List.isChain_append.2 ⟨hls.joins, hms, fun s hs t _ => ?_⟩
  obtain ⟨hop, hfun⟩ := hls.last s hs
  exact ⟨fun h => absurd h hop, fun h => absurd h hfun⟩

theorem append (hls : Tidy ls) (hms : Tidy ms) : Tidy (ls ++ ms) := by
  refine ⟨fun l hl => ?_, hls.joins_append hms.joins, fun l hl => ?_⟩
  · rcases List.mem_append.1 hl with hl | hl
    · exact hls.fits l hl
    · exact hms.fits l hl
  · rw [List.getLast?_append, Option.mem_def, Option.or_eq_some_iff] at hl
    rcases hl with hl | ⟨-, hl⟩
    · exact hms.last l hl
    · exact hls.last l hl

/-- An operand that something other than an operand follows. -/
theorem operand_cons (hl : l.Fits) (hop : l.kind.isOperand) (h : Tidy ls)
    (hhead : ∃ t ∈ ls.head?, ¬ t.kind.startsOperand) : Tidy (l :: ls) := by
  obtain ⟨t, ht, htk⟩ := hhead
  refine ⟨by simpa using ⟨hl, h.fits⟩, List.isChain_cons.2 ⟨fun u hu => ?_, h.joins⟩, ?_⟩
  · cases Option.mem_unique hu ht
    exact ⟨fun _ => htk, fun hfun => by simp [hfun, Kind.isOperand] at hop⟩
  · cases ls with
    | nil => cases ht
    | cons u us => simpa using h.last

end Tidy

namespace Scan

/-- The runs are runs of what they are called, and only one of them is held. -/
structure Orderly (s : Scan) : Prop where
  letters : ∀ c ∈ s.letters, c.isAlpha
  digits : ∀ c ∈ s.digits, c.isDigit ∨ c = '.'
  single : s.letters = [] ∨ s.digits = []

/-- The lexemes among findings. -/
def lexemesOf (found : List Finding) : List Lexeme := found.filterMap Finding.lexeme?

@[simp] theorem lexemesOf_nil : lexemesOf [] = [] := rfl

@[simp] theorem lexemesOf_append (f g : List Finding) :
    lexemesOf (f ++ g) = lexemesOf f ++ lexemesOf g := List.filterMap_append

@[simp] theorem lexemesOf_written (l : Lexeme) (f : List Finding) :
    lexemesOf (.written l :: f) = l :: lexemesOf f := rfl

@[simp] theorem lexemesOf_implied (f : List Finding) :
    lexemesOf (.implied :: f) = .ofOperator .multiply :: lexemesOf f := rfl

@[simp] theorem lexemesOf_skipped (c : Char) (f : List Finding) :
    lexemesOf (.skipped c :: f) = lexemesOf f := rfl

/-- What ending the run that is held would add. -/
def pending (s : Scan) : List Lexeme := lexemesOf s.flush.2

variable {s : Scan} {c : Char} {l : Lexeme}

theorem flush_letters (h : s.letters ≠ []) : s.flush =
    ({ s with letters := [] }, (s.letters.map (.written <| .ofLetter ·)).intersperse .implied) := by
  simp only [flush, h, if_true, ne_eq, not_false_eq_true]

theorem flush_digits (h : s.letters = []) (h' : s.digits ≠ []) :
    s.flush = ({ s with digits := [] }, [.written (.ofDigits s.digits)]) := by
  simp [flush, h, h']

theorem flush_nothing (h : s.letters = []) (h' : s.digits = []) : s.flush = (s, []) := by
  simp [flush, h, h']

/-- A run that ends is all that was held. -/
theorem flush_empties (h : s.letters = [] ∨ s.digits = []) :
    s.flush.1.letters = [] ∧ s.flush.1.digits = [] := by
  by_cases hl : s.letters = []
  · by_cases hd : s.digits = []
    · rw [flush_nothing hl hd]; exact ⟨hl, hd⟩
    · rw [flush_digits hl hd]; exact ⟨hl, rfl⟩
  · rw [flush_letters hl]; exact ⟨rfl, h.resolve_left hl⟩

/-- Variables with the products between them, and one more thing after them. -/
theorem tidy_letters {cs : List Char} (hcs : ∀ c ∈ cs, c.isAlpha) {ls : List Lexeme} (h : Tidy ls)
    (hhead : ∃ t ∈ ls.head?, ¬ t.kind.startsOperand) :
    Tidy (lexemesOf ((cs.map (.written <| .ofLetter ·)).intersperse .implied) ++ ls) := by
  induction cs with
  | nil => exact h
  | cons c cs ih =>
    have hc : (Lexeme.ofLetter c).Fits := Lexeme.fits_ofLetter (hcs c (by simp))
    have ih := ih fun d hd => hcs d (List.mem_cons_of_mem _ hd)
    cases cs with
    | nil => exact .operand_cons hc rfl h hhead
    | cons d ds =>
      have : Tidy ([Lexeme.ofOperator .multiply]) :=
        .singleton (Lexeme.fits_ofOperator _) (by simp [Lexeme.ofOperator, Kind.isOperand])
      exact .operand_cons hc rfl (this.append ih)
        ⟨_, rfl, by simp [Lexeme.ofOperator, Kind.startsOperand]⟩

/-- A symbol after the run that it ends. -/
theorem tidy_endRun (hs : s.Orderly) (hl : l.Fits) (h : ¬ l.kind.startsOperand)
    (h' : l.kind ≠ .function) : Tidy (lexemesOf (s.endRun l).2) := by
  have hop : ¬ l.kind.isOperand := fun hop => h (Kind.startsOperand_of_isOperand hop)
  have hone : Tidy [l] := .singleton hl ⟨hop, h'⟩
  have hhead : ∃ t ∈ [l].head?, ¬ t.kind.startsOperand := ⟨l, rfl, h⟩
  simp only [endRun, lexemesOf_append, lexemesOf_written, lexemesOf_nil]
  by_cases hlet : s.letters = []
  · by_cases hdig : s.digits = []
    · rw [flush_nothing hlet hdig]
      exact hone
    · rw [flush_digits hlet hdig]
      exact .operand_cons (Lexeme.fits_ofDigits hdig hs.digits) rfl hone hhead
  · rw [flush_letters hlet]
    exact tidy_letters hs.letters hone hhead

theorem tidy_openGroup (hs : s.Orderly) : Tidy (lexemesOf s.openGroup.2) := by
  have hopen : Tidy [Lexeme.leftParenthesis] :=
    .singleton rfl (by simp [Lexeme.leftParenthesis, Kind.isOperand])
  have htimes : Tidy [Lexeme.ofOperator .multiply] :=
    .singleton rfl (by simp [Lexeme.ofOperator, Kind.isOperand])
  unfold openGroup
  split_ifs with hlet hdig hlast
  · refine ⟨?_, ?_, by simp [Lexeme.leftParenthesis, Kind.isOperand]⟩
    · simpa using ⟨Lexeme.fits_ofName hlet hs.letters, (rfl : Lexeme.leftParenthesis.Fits)⟩
    · simp [Lexeme.Joins, Lexeme.ofName, Lexeme.leftParenthesis, Kind.isOperand]
  · exact .operand_cons (Lexeme.fits_ofDigits hdig hs.digits) rfl (htimes.append hopen)
      ⟨_, rfl, by simp [Lexeme.ofOperator, Kind.startsOperand]⟩
  · exact htimes.append hopen
  · exact hopen

theorem tidy_read (hs : s.Orderly) (c : Char) : Tidy (lexemesOf (s.read c).2) := by
  have htimes : Tidy [Lexeme.ofOperator .multiply] :=
    .singleton rfl (by simp [Lexeme.ofOperator, Kind.isOperand])
  have hhead : ∃ t ∈ [Lexeme.ofOperator .multiply].head?, ¬ t.kind.startsOperand :=
    ⟨_, rfl, by simp [Lexeme.ofOperator, Kind.startsOperand]⟩
  unfold read
  cases Glyph.ofChar c with
  | digit =>
    have hrun : ∀ cs : List Char, (∀ d ∈ cs, d.isAlpha) →
        Tidy (lexemesOf (cs.flatMap fun d => [.written (.ofLetter d), .implied])) := by
      intro cs hcs
      induction cs with
      | nil => exact .nil
      | cons d cs ih =>
        have hd := Lexeme.fits_ofLetter (hcs d (by simp))
        have hone : Tidy [Lexeme.ofLetter d, Lexeme.ofOperator .multiply] :=
          .operand_cons hd rfl htimes hhead
        exact hone.append (ih fun e he => hcs e (List.mem_cons_of_mem _ he))
    exact hrun _ hs.letters
  | letter =>
    simp only
    split_ifs with hdig
    · exact .nil
    · exact .operand_cons (Lexeme.fits_ofDigits hdig hs.digits) rfl htimes hhead
  | operator o =>
    exact tidy_endRun hs rfl (by simp [Lexeme.ofOperator, Kind.startsOperand])
      (by simp [Lexeme.ofOperator])
  | leftParenthesis => exact tidy_openGroup hs
  | rightParenthesis =>
    exact tidy_endRun hs rfl (by simp [Lexeme.rightParenthesis, Kind.startsOperand])
      (by simp [Lexeme.rightParenthesis])
  | comma =>
    exact tidy_endRun hs rfl (by simp [Lexeme.comma, Kind.startsOperand]) (by simp [Lexeme.comma])
  | foreign => exact .nil

theorem orderly_of_nil {last : Option Char} : Orderly ⟨[], [], last⟩ :=
  ⟨by simp, by simp, .inl rfl⟩

theorem Orderly.read (hs : s.Orderly) (c : Char) : (s.read c).1.Orderly := by
  have hflush := flush_empties hs.single
  unfold Scan.read
  cases hc : Glyph.ofChar c with
  | digit =>
    refine ⟨by simp, ?_, .inl rfl⟩
    have := Glyph.ofChar_eq_digit_iff.1 hc
    simp only [List.mem_append, List.mem_singleton]
    rintro d (hd | rfl)
    · exact hs.digits d hd
    · exact this
  | letter =>
    refine ⟨?_, by simp, .inr rfl⟩
    have := Glyph.ofChar_eq_letter_iff.1 hc
    simp only [List.mem_append, List.mem_singleton]
    rintro d (hd | rfl)
    · exact hs.letters d hd
    · exact this
  | operator | rightParenthesis | comma =>
    refine ⟨?_, ?_, .inl ?_⟩ <;> simp [endRun, hflush]
  | leftParenthesis =>
    simp only [openGroup]
    split_ifs with hlet hdig hlast
    · exact ⟨by simp, hs.digits, .inl rfl⟩
    · exact ⟨hs.letters, by simp, .inr rfl⟩
    · exact ⟨hs.letters, hs.digits, hs.single⟩
    · exact ⟨hs.letters, hs.digits, hs.single⟩
  | foreign => exact ⟨hs.letters, hs.digits, hs.single⟩

/-- However much is read, the runs stay in order and what is found is tidy. -/
theorem Orderly.readAll (hs : s.Orderly) (cs : List Char) :
    (s.readAll cs).1.Orderly ∧ Tidy (lexemesOf (s.readAll cs).2) := by
  induction cs generalizing s with
  | nil => exact ⟨hs, .nil⟩
  | cons c cs ih =>
    obtain ⟨horder, htidy⟩ := ih (hs.read c)
    simp only [Scan.readAll, lexemesOf_append]
    exact ⟨horder, (tidy_read hs c).append htidy⟩

end Scan

theorem lexemes_eq (text : String) : lexemes text =
    Scan.lexemesOf (Scan.readAll {} (Glyph.normalize text.toList)).2 ++
      (Scan.readAll {} (Glyph.normalize text.toList)).1.pending :=
  List.filterMap_append

/-- A text could go on with any symbol, such as a comma. -/
theorem lexemes_tidy (text : String) : Tidy (lexemes text ++ [.comma]) := by
  have hstart : Scan.Orderly {} := Scan.orderly_of_nil
  obtain ⟨horder, htidy⟩ := hstart.readAll (Glyph.normalize text.toList)
  have hcomma := Scan.tidy_endRun (l := .comma) horder rfl
    (by simp [Lexeme.comma, Kind.startsOperand]) (by simp [Lexeme.comma])
  have := htidy.append hcomma
  rwa [Scan.endRun, Scan.lexemesOf_append, ← List.append_assoc, ← Scan.pending,
    ← lexemes_eq] at this

theorem fits_of_mem_lexemes {text : String} {l : Lexeme} (h : l ∈ lexemes text) : l.Fits :=
  (lexemes_tidy text).fits l (List.mem_append_left _ h)

theorem lexemes_joins (text : String) : (lexemes text).IsChain Lexeme.Joins :=
  (List.isChain_append.1 (lexemes_tidy text).joins).1

/-- A text does not end in the name of a function. -/
theorem lexemes_last (text : String) : ∀ l ∈ (lexemes text).getLast?, l.kind ≠ .function := by
  intro l hl hfun
  have := (List.isChain_append.1 (lexemes_tidy text).joins).2.2 l hl .comma rfl
  cases this.2 hfun

theorem map_toLexeme_numberFrom (ls : List Lexeme) (n : Nat) :
    (Token.numberFrom n ls).map (·.toLexeme) = ls := by
  unfold Token.numberFrom
  rw [List.map_map]
  exact List.zipIdx_map_fst n ls

theorem map_id_numberFrom (ls : List Lexeme) (n : Nat) :
    (Token.numberFrom n ls).map (·.id) = List.range' n ls.length := by
  unfold Token.numberFrom
  rw [List.map_map]
  exact List.zipIdx_map_snd n ls

/-- Tokens are numbered lexemes. -/
theorem numberFrom_map_toLexeme {ts : List Token} {n : Nat}
    (h : ts.map (·.id) = List.range' n ts.length) :
    Token.numberFrom n (ts.map (·.toLexeme)) = ts := by
  induction ts generalizing n with
  | nil => rfl
  | cons t ts ih =>
    rw [List.map_cons, List.length_cons, List.range'_succ, List.cons.injEq] at h
    obtain ⟨rfl, h⟩ := h
    exact congrArg (t :: ·) (ih h)

theorem map_toLexeme_tokenize (text : String) :
    (tokenize text).map (·.toLexeme) = lexemes text := map_toLexeme_numberFrom _ _

theorem length_tokenize (text : String) : (tokenize text).length = (lexemes text).length := by
  rw [← map_toLexeme_tokenize, List.length_map]

theorem map_id_tokenize (text : String) :
    (tokenize text).map (·.id) = List.range' 1 (tokenize text).length := by
  rw [tokenize, map_id_numberFrom]
  simp [Token.numberFrom]

theorem nodup_ids_tokenize (text : String) : ((tokenize text).map (·.id)).Nodup := by
  rw [map_id_tokenize]
  exact List.nodup_range'

theorem fits_of_mem_tokenize {text : String} {t : Token} (h : t ∈ tokenize text) :
    t.toLexeme.Fits := by
  have hmem := List.mem_map_of_mem (f := fun t : Token => t.toLexeme) h
  rw [map_toLexeme_tokenize] at hmem
  exact fits_of_mem_lexemes hmem

theorem tokenize_joins (text : String) :
    (tokenize text).IsChain fun s t => s.toLexeme.Joins t.toLexeme := by
  have := lexemes_joins text
  rwa [← map_toLexeme_tokenize, List.isChain_map] at this

/-- In a text a name is read as a function only where a group follows it. -/
theorem functionsCall_tokenize (text : String) : FunctionsCall (tokenize text) := by
  refine functionsCall_iff.2 ⟨(tokenize_joins text).imp fun _ _ h => h.2, fun f hf hkind => ?_⟩
  have hlast := lexemes_last text f.toLexeme
  rw [← map_toLexeme_tokenize, List.getLast?_map, Option.mem_def.1 hf] at hlast
  exact hlast rfl hkind

end InfixTree
