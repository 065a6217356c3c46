import InfixTree.Proofs.Scan.Adjacency
import InfixTree.Token.Spelling

/-! Lexemes are read back from what they are spelled as. Blanks go, so a list is read from
its values alone. Reading a value either holds it back, as the run it is, or ends the run
that was held and finds both; and it finds no multiplication, unless an opening
parenthesis comes after a closing one. -/
namespace InfixTree

namespace Glyph

/-- The characters of the notation besides digits and letters. -/
def signs : List Char := ['.', '(', ')', ',', '+', '-', '*', '/', '^']

theorem not_foreign_iff {c : Char} :
    ofChar c ≠ .foreign ↔ (c.isDigit ∨ c.isAlpha) ∨ c ∈ signs := by
  constructor
  · intro h
    unfold ofChar at h
    split_ifs at h with hd ha hl hr hc
    · rw [Bool.or_eq_true, decide_eq_true_eq] at hd
      rcases hd with hd | rfl
      · exact .inl (.inl hd)
      · simp [signs]
    · exact .inl (.inr ha)
    · simp [hl, signs]
    · simp [hr, signs]
    · simp [hc, signs]
    · split at h
      · rename_i o ho
        rw [← Operator.symbol_of_ofSymbol? ho]
        cases o <;> simp [Operator.symbol, signs]
      · exact absurd rfl h
  · rintro ((h | h) | h)
    · simp [ofChar_eq_digit_iff.2 (.inl h)]
    · simp [ofChar_eq_letter_iff.2 h]
    · have hall : signs.all (ofChar · ≠ .foreign) := by decide
      simpa using List.all_eq_true.1 hall c h

/-- No character of the notation is a blank. -/
theorem isBlank_of_not_foreign {c : Char} (h : ofChar c ≠ .foreign) : Text.isBlank c = false := by
  rw [Bool.eq_false_iff, ne_eq, Text.isBlank, Text.Ranges.contains_iff]
  rcases not_foreign_iff.1 h with hc | hc
  · have hc : (48 ≤ c.toNat ∧ c.toNat ≤ 57) ∨
        (65 ≤ c.toNat ∧ c.toNat ≤ 90) ∨ (97 ≤ c.toNat ∧ c.toNat ≤ 122) :=
      hc.imp Char.isDigit_iff_toNat.1 isAlpha_iff_toNat.1
    simp only [Text.blankRanges, List.mem_cons, List.not_mem_nil, or_false, exists_eq_or_imp,
      exists_eq_left]
    omega
  · have hall : signs.all fun c =>
        ¬ ∃ r ∈ Text.blankRanges.list, r.1 ≤ c.toNat ∧ c.toNat ≤ r.2 := by decide
    exact of_decide_eq_true (List.all_eq_true.1 hall c hc)

theorem standard_of_not_foreign {c : Char} (h : ofChar c ≠ .foreign) : standard c = c := by
  unfold standard
  split
  · exact absurd rfl h
  · exact absurd rfl h
  · rfl

theorem normalize_append (cs ds : List Char) :
    normalize (cs ++ ds) = normalize cs ++ normalize ds := by
  simp [normalize]

theorem normalize_of_not_foreign {cs : List Char} (h : ∀ c ∈ cs, ofChar c ≠ .foreign) :
    normalize cs = cs := by
  induction cs with
  | nil => rfl
  | cons c cs ih =>
    have hc := h c (by simp)
    have ih := ih fun d hd => h d (List.mem_cons_of_mem _ hd)
    simp only [normalize] at ih
    simp [normalize, isBlank_of_not_foreign hc, standard_of_not_foreign hc, ih]

end Glyph

namespace Lexeme

variable {l : Lexeme}

/-- Values are written in the characters of the notation. -/
theorem Fits.not_foreign (h : l.Fits) : ∀ c ∈ l.value.toList, Glyph.ofChar c ≠ .foreign := by
  obtain ⟨kind, value⟩ := l
  intro c hc
  cases kind with
  | literal =>
    rcases h.2 c hc with hd | rfl
    · exact Glyph.not_foreign_iff.2 (.inl (.inl hd))
    · decide
  | «variable» =>
    obtain ⟨d, hd, rfl⟩ := h
    simp only [Char.toString, String.toList_singleton, List.mem_singleton] at hc
    subst hc
    exact Glyph.not_foreign_iff.2 (.inl (.inr hd))
  | function => exact Glyph.not_foreign_iff.2 (.inl (.inr (h.2 c hc)))
  | operator o =>
    have h : value = o.symbol.toString := h
    subst h
    simp only [Char.toString, String.toList_singleton, List.mem_singleton] at hc
    subst hc
    simp [Glyph.ofChar_symbol]
  | leftParenthesis | rightParenthesis | comma =>
    cases h
    obtain rfl := List.mem_singleton.1 hc
    decide

theorem Fits.value_ne (h : l.Fits) : l.value.toList ≠ [] := by
  obtain ⟨kind, value⟩ := l
  cases kind with
  | literal | function => simpa using h.1
  | «variable» =>
    obtain ⟨c, -, rfl⟩ := h
    simp [Char.toString]
  | operator o =>
    have h : value = o.symbol.toString := h
    simp [h, Char.toString]
  | leftParenthesis | rightParenthesis | comma =>
    cases h
    decide

/-- Only a closing parenthesis is written as one. -/
theorem Fits.rightParenthesis (h : l.Fits) (hmem : ')' ∈ l.value.toList) :
    l.kind = .rightParenthesis := by
  obtain ⟨kind, value⟩ := l
  cases kind with
  | literal => exact absurd (h.2 _ hmem) (by decide)
  | «variable» =>
    obtain ⟨d, hd, rfl⟩ := h
    simp only [Char.toString, String.toList_singleton, List.mem_singleton] at hmem
    subst hmem
    exact absurd hd (by decide)
  | function => exact absurd (h.2 _ hmem) (by decide)
  | operator o =>
    cases h
    revert hmem
    cases o <;> decide
  | leftParenthesis | comma =>
    cases h
    revert hmem
    decide
  | rightParenthesis => rfl

theorem normalize_spelling (h : l.Fits) :
    Glyph.normalize l.spelling.toList = l.value.toList := by
  have hvalue := Glyph.normalize_of_not_foreign h.not_foreign
  have hblank : Glyph.normalize [' '] = [] := by decide
  unfold spelling
  split
  · rename_i o _
    unfold Operator.spaced
    split
    · exact hvalue
    · rw [String.toList_append, String.toList_append, Glyph.normalize_append,
        Glyph.normalize_append, hvalue]
      simp [hblank]
  · rw [String.toList_append, Glyph.normalize_append, hvalue]
    simp [hblank]
  · exact hvalue

end Lexeme

/-- Lexemes that are read back from their spellings. -/
structure Legible (ls : List Lexeme) : Prop where
  fits : ∀ l ∈ ls, l.Fits
  joins : ls.IsChain Lexeme.Joins
  apart : ls.IsChain fun s t => s.kind = .rightParenthesis → t.kind ≠ .leftParenthesis
  last : ∀ l ∈ ls.getLast?, l.kind ≠ .function

namespace Scan

variable {s : Scan} {cs ds : List Char} {c : Char} {l : Lexeme} {held : Option Lexeme}

theorem readAll_append : s.readAll (cs ++ ds) = (((s.readAll cs).1.readAll ds).1,
    (s.readAll cs).2 ++ ((s.readAll cs).1.readAll ds).2) := by
  induction cs generalizing s with
  | nil => rfl
  | cons c cs ih => simp [readAll, ih]

theorem last_readAll : (s.readAll cs).1.last = cs.getLast?.or s.last := by
  induction cs generalizing s with
  | nil => rfl
  | cons c cs ih =>
    have hread : (s.read c).1.last = some c := rfl
    rw [readAll, List.getLast?_cons]
    simp only [ih, hread]
    cases cs.getLast? <;> rfl

/-- The run held back, as the lexeme that it is if nothing is added to it. -/
inductive Holds (s : Scan) : Option Lexeme → Prop
  | nothing : s.letters = [] → s.digits = [] → Holds s none
  | literal : s.letters = [] → s.digits ≠ [] → Holds s (some (.ofDigits s.digits))
  | letter {c : Char} : s.letters = [c] → s.digits = [] → Holds s (some (.ofLetter c))
  | name : s.letters ≠ [] → s.digits = [] → Holds s (some (.ofName s.letters))

/-- Only operands and functions are held. -/
theorem Holds.none_of_joins (h : s.Holds held) (hjoins : ∀ m ∈ held, m.Joins l)
    (hl : l.kind.startsOperand) (hp : l.kind ≠ .leftParenthesis) :
    s.letters = [] ∧ s.digits = [] ∧ held = none := by
  cases h with
  | nothing hlet hdig => exact ⟨hlet, hdig, rfl⟩
  | literal => exact absurd hl ((hjoins _ rfl).1 rfl)
  | letter => exact absurd hl ((hjoins _ rfl).1 rfl)
  | name => exact absurd ((hjoins _ rfl).2 rfl) hp

/-- A digit multiplies the letters that were held. -/
theorem read_digit (hc : Glyph.ofChar c = .digit) : s.read c =
    (⟨[], s.digits ++ [c], some c⟩,
      s.letters.flatMap fun d => [.written (.ofLetter d), .implied]) := by
  simp [read, hc]

/-- A letter multiplies the literal that was held. -/
theorem read_letter (hc : Glyph.ofChar c = .letter) : s.read c =
    (⟨s.letters ++ [c], [], some c⟩,
      if s.digits = [] then [] else [.written (.ofDigits s.digits), .implied]) := by
  simp [read, hc]

theorem readAll_digits (hcs : ∀ c ∈ cs, c.isDigit ∨ c = '.') (hs : s.letters = []) :
    (s.readAll cs).1.letters = [] ∧ (s.readAll cs).1.digits = s.digits ++ cs ∧
      (s.readAll cs).2 = [] := by
  induction cs generalizing s with
  | nil => simp [readAll, hs]
  | cons c cs ih =>
    have hc := Glyph.ofChar_eq_digit_iff.2 (hcs c (by simp))
    have ih := @ih ⟨[], s.digits ++ [c], some c⟩
      (fun d hd => hcs d (List.mem_cons_of_mem _ hd)) rfl
    rw [readAll, read_digit hc, hs]
    simpa using ih

theorem readAll_letters (hcs : ∀ c ∈ cs, c.isAlpha) (hs : s.digits = []) :
    (s.readAll cs).1.letters = s.letters ++ cs ∧ (s.readAll cs).1.digits = [] ∧
      (s.readAll cs).2 = [] := by
  induction cs generalizing s with
  | nil => simp [readAll, hs]
  | cons c cs ih =>
    have hc := Glyph.ofChar_eq_letter_iff.2 (hcs c (by simp))
    have ih := @ih ⟨s.letters ++ [c], [], some c⟩
      (fun d hd => hcs d (List.mem_cons_of_mem _ hd)) rfl
    rw [readAll, read_letter hc, if_pos hs]
    simpa using ih

/-- What is held is found when the run ends. -/
theorem Holds.flush (h : s.Holds held) (hheld : ∀ m ∈ held, m.kind ≠ .function) :
    s.flush.1.letters = [] ∧ s.flush.1.digits = [] ∧ s.pending = held.toList := by
  cases h with
  | nothing hlet hdig =>
    rw [pending, flush_nothing hlet hdig]
    exact ⟨hlet, hdig, rfl⟩
  | literal hlet hdig =>
    rw [pending, flush_digits hlet hdig]
    exact ⟨hlet, rfl, rfl⟩
  | letter hlet hdig =>
    rw [pending, flush_letters (by simp [hlet]), hlet]
    exact ⟨rfl, hdig, rfl⟩
  | name => exact absurd rfl (hheld _ rfl)

/-- A symbol ends the run and is found at once. -/
theorem Holds.endRun (h : s.Holds held) (hheld : ∀ m ∈ held, m.kind ≠ .function)
    (hread : s.read c = ({ (s.endRun l).1 with last := some c }, (s.endRun l).2)) :
    (s.readAll [c]).1.Holds none ∧ lexemesOf (s.readAll [c]).2 = held.toList ++ [l] := by
  obtain ⟨hlet, hdig, hpending⟩ := h.flush hheld
  have hall : s.readAll [c] = s.read c := by simp [readAll]
  rw [hall, hread]
  refine ⟨.nothing hlet hdig, ?_⟩
  rw [Scan.endRun, lexemesOf_append, ← hpending]
  rfl

/-- An opening parenthesis ends the name of a function. -/
theorem Holds.openGroup (h : s.Holds held) (hheld : ∀ m ∈ held, m.kind = .function)
    (hlast : s.last ≠ some ')') : (s.readAll ['(']).1.Holds none ∧
      lexemesOf (s.readAll ['(']).2 = held.toList ++ [.leftParenthesis] := by
  have hread : s.readAll ['('] = ({ s.openGroup.1 with last := some '(' }, s.openGroup.2) := by
    simp [readAll, read, Glyph.ofChar]
  rw [hread]
  cases h with
  | nothing hlet hdig =>
    have hopen : s.openGroup = (s, [.written .leftParenthesis]) := by
      simp [Scan.openGroup, hlet, hdig, hlast]
    rw [hopen]
    exact ⟨.nothing hlet hdig, rfl⟩
  | literal => cases hheld _ rfl
  | letter => cases hheld _ rfl
  | name hlet hdig =>
    have hopen : s.openGroup = ({ s with letters := [] },
        [.written (.ofName s.letters), .written .leftParenthesis]) := by
      simp [Scan.openGroup, hlet]
    rw [hopen]
    exact ⟨.nothing rfl hdig, rfl⟩

/-- An operand or the name of a function is held once it has been read. -/
theorem holds_value (hl : l.Fits) (hk : l.kind.isOperand ∨ l.kind = .function)
    (hlet : s.letters = []) (hdig : s.digits = []) :
    (s.readAll l.value.toList).1.Holds (some l) ∧ (s.readAll l.value.toList).2 = [] := by
  obtain ⟨kind, value⟩ := l
  cases kind with
  | literal =>
    obtain ⟨hlet', hdig', hfound⟩ := readAll_digits hl.2 hlet
    rw [hdig, List.nil_append] at hdig'
    have hne : value.toList ≠ [] := by simpa using hl.1
    have hholds := Holds.literal hlet' (hdig'.symm ▸ hne)
    rw [hdig', Lexeme.ofDigits, String.ofList_toList] at hholds
    exact ⟨hholds, hfound⟩
  | «variable» =>
    obtain ⟨c, hc, rfl⟩ := hl
    simp only [Char.toString, String.toList_singleton]
    obtain ⟨hlet', hdig', hfound⟩ := readAll_letters (s := s) (List.forall_mem_singleton.2 hc) hdig
    rw [hlet, List.nil_append] at hlet'
    exact ⟨.letter hlet' hdig', hfound⟩
  | function =>
    obtain ⟨hlet', hdig', hfound⟩ := readAll_letters hl.2 hdig
    rw [hlet, List.nil_append] at hlet'
    have hne : value.toList ≠ [] := by simpa using hl.1
    have hholds := Holds.name (hlet'.symm ▸ hne) hdig'
    rw [hlet', Lexeme.ofName, String.ofList_toList] at hholds
    exact ⟨hholds, hfound⟩
  | operator | leftParenthesis | rightParenthesis | comma =>
    rcases hk with hk | hk <;> cases hk

/-- Reading the value of a lexeme finds what was held and the lexeme, or holds that. -/
def Takes (s : Scan) (held : Option Lexeme) (l : Lexeme) : Prop :=
  ∃ now, (s.readAll l.value.toList).1.Holds now ∧ (∀ m ∈ now, m = l) ∧
    lexemesOf (s.readAll l.value.toList).2 ++ now.toList = held.toList ++ [l]

theorem takes_of_found (h : (s.readAll l.value.toList).1.Holds none ∧
    lexemesOf (s.readAll l.value.toList).2 = held.toList ++ [l]) : s.Takes held l :=
  ⟨none, h.1, by simp, (List.append_nil _).trans h.2⟩

/-- Nothing is held before a run, for the lexemes join. -/
theorem Holds.takes_run (h : s.Holds held) (hl : l.Fits) (hjoins : ∀ m ∈ held, m.Joins l)
    (hk : l.kind.isOperand ∨ l.kind = .function) : s.Takes held l := by
  have hstart : l.kind.startsOperand := by
    rcases hk with hk | hk
    · exact Kind.startsOperand_of_isOperand hk
    · rw [hk]; rfl
  have hp : l.kind ≠ .leftParenthesis := by
    intro hp
    rcases hk with hk | hk <;> rw [hp] at hk <;> cases hk
  obtain ⟨hlet, hdig, rfl⟩ := h.none_of_joins hjoins hstart hp
  obtain ⟨hholds, hfound⟩ := holds_value hl hk hlet hdig
  exact ⟨some l, hholds, by simp, by simp [hfound]⟩

theorem Holds.takes (h : s.Holds held) (hl : l.Fits) (hjoins : ∀ m ∈ held, m.Joins l)
    (hlast : l.kind = .leftParenthesis → s.last ≠ some ')') : s.Takes held l := by
  have hsymbol : l.kind ≠ .leftParenthesis → ∀ m ∈ held, m.kind ≠ .function :=
    fun hp m hm hfun => hp ((hjoins m hm).2 hfun)
  obtain ⟨kind, value⟩ := l
  cases kind with
  | literal | «variable» => exact h.takes_run hl hjoins (.inl rfl)
  | function => exact h.takes_run hl hjoins (.inr rfl)
  | operator o =>
    have hl : value = o.symbol.toString := hl
    subst hl
    have hread : s.read o.symbol = ({ (s.endRun (.ofOperator o)).1 with last := some o.symbol },
        (s.endRun (.ofOperator o)).2) := by
      simp [read, Glyph.ofChar_symbol]
    have hfound := h.endRun (hsymbol (by simp)) hread
    refine takes_of_found ?_
    simp only [Char.toString, String.toList_singleton]
    exact hfound
  | rightParenthesis =>
    cases hl
    exact takes_of_found (h.endRun (c := ')') (l := .rightParenthesis) (hsymbol (by simp)) rfl)
  | comma =>
    cases hl
    exact takes_of_found (h.endRun (c := ',') (l := .comma) (hsymbol (by simp)) rfl)
  | leftParenthesis =>
    cases hl
    have hfun : ∀ m ∈ held, m.kind = .function := by
      intro m hm
      have hop : ¬ m.kind.isOperand := fun hop => (hjoins m hm).1 hop rfl
      cases h with
      | nothing => cases hm
      | literal => cases hm; exact absurd rfl hop
      | letter => cases hm; exact absurd rfl hop
      | name => cases hm; rfl
    exact takes_of_found (h.openGroup hfun (hlast rfl))

theorem Holds.congr {s' : Scan} (h : s.Holds held) (hlet : s'.letters = s.letters)
    (hdig : s'.digits = s.digits) : s'.Holds held := by
  obtain ⟨letters, digits, last⟩ := s'
  subst hlet hdig
  cases h with
  | nothing h h' => exact .nothing h h'
  | literal h h' => exact .literal h h'
  | letter h h' => exact .letter h h'
  | name h h' => exact .name h h'

theorem read_foreign (hc : Glyph.ofChar c = .foreign) :
    s.read c = ({ s with last := some c }, [.skipped c]) := by
  simp [read, hc]

/-- Characters outside of the notation find nothing, and the run goes on after them. -/
theorem readAll_foreign (hcs : ∀ c ∈ cs, Glyph.ofChar c = .foreign) :
    (s.readAll cs).1.letters = s.letters ∧ (s.readAll cs).1.digits = s.digits ∧
      lexemesOf (s.readAll cs).2 = [] := by
  induction cs generalizing s with
  | nil => exact ⟨rfl, rfl, rfl⟩
  | cons c cs ih =>
    obtain ⟨hc, hcs⟩ := List.forall_mem_cons.1 hcs
    rw [readAll, read_foreign hc]
    exact @ih { s with last := some c } hcs

/-- The values of lexemes can be read after what is held, each with characters outside of the
notation after it. One has to stand after a value that closes a group right before the next. -/
structure Awaits (s : Scan) (held : Option Lexeme) (skipped : Lexeme → List Char)
    (ls : List Lexeme) : Prop where
  holds : s.Holds held
  foreign : ∀ l, ∀ c ∈ skipped l, Glyph.ofChar c = .foreign
  fits : ∀ l ∈ ls, l.Fits
  joins : (held.toList ++ ls).IsChain Lexeme.Joins
  apart : ls.IsChain fun s t =>
    s.kind = .rightParenthesis → t.kind = .leftParenthesis → skipped s ≠ []
  open_apart : ∀ l ∈ ls.head?, l.kind = .leftParenthesis → s.last ≠ some ')'
  last : ∀ l ∈ (held.toList ++ ls).getLast?, l.kind ≠ .function

/-- A closing parenthesis is what was read last only where one stands at the end. -/
theorem last_ne_close (hl : l.Fits) (hcs : ∀ c ∈ cs, Glyph.ofChar c = .foreign)
    (h : l.kind = .rightParenthesis → cs ≠ []) :
    (s.readAll (l.value.toList ++ cs)).1.last ≠ some ')' := by
  rw [last_readAll, List.getLast?_append]
  cases hlast : cs.getLast? with
  | none =>
    rw [List.getLast?_eq_some_getLast hl.value_ne]
    intro hclose
    have hmem : ')' ∈ l.value.toList := Option.some.inj hclose ▸ List.getLast_mem hl.value_ne
    exact h (hl.rightParenthesis hmem) (List.getLast?_eq_none_iff.1 hlast)
  | some c =>
    rintro ⟨⟩
    cases hcs _ (List.mem_of_getLast? hlast)

/-- What is held after a lexeme is at most this one. -/
theorem suffix_of_held {now : Option Lexeme} (ls : List Lexeme) (h : ∀ m ∈ now, m = l) :
    now.toList ++ ls <:+ held.toList ++ l :: ls := by
  cases now with
  | none => exact (List.suffix_cons l ls).trans (List.suffix_append _ _)
  | some m =>
    obtain rfl := h m rfl
    exact List.suffix_append _ _

theorem Awaits.next {skipped : Lexeme → List Char} {ls : List Lexeme}
    (h : s.Awaits held skipped (l :: ls)) : ∃ now,
      (s.readAll (l.value.toList ++ skipped l)).1.Awaits now skipped ls ∧
        lexemesOf (s.readAll (l.value.toList ++ skipped l)).2 ++ now.toList =
          held.toList ++ [l] := by
  obtain ⟨hl, hfits⟩ := List.forall_mem_cons.1 h.fits
  obtain ⟨hclose, hapart⟩ := List.isChain_cons.1 h.apart
  have hjoins : ∀ m ∈ held, m.Joins l := fun m hm =>
    (List.isChain_append.1 h.joins).2.2 m (by cases hm; rfl) l rfl
  obtain ⟨now, hnow, hmem, hfound⟩ := h.holds.takes hl hjoins (h.open_apart l rfl)
  obtain ⟨hlet, hdig, hnone⟩ := readAll_foreign (s := (s.readAll l.value.toList).1) (h.foreign l)
  have hsuffix : now.toList ++ ls <:+ held.toList ++ l :: ls := suffix_of_held ls hmem
  refine ⟨now, ⟨?_, h.foreign, hfits, h.joins.suffix hsuffix, hapart, fun m hm hp => ?_,
    fun m hm => ?_⟩, ?_⟩
  · rw [readAll_append]
    exact hnow.congr hlet hdig
  · exact last_ne_close hl (h.foreign l) fun hk => hclose m hm hk hp
  · obtain ⟨before, hbefore⟩ := hsuffix
    refine h.last m ?_
    rw [← hbefore, List.getLast?_append, Option.mem_def.1 hm]
    rfl
  · rw [readAll_append, lexemesOf_append, hnone, List.append_nil, hfound]

/-- What is found in the values of lexemes, and what is held at their end, are the lexemes. -/
theorem Awaits.readAll {skipped : Lexeme → List Char} {ls : List Lexeme}
    (h : s.Awaits held skipped ls) :
    lexemesOf (s.readAll (ls.flatMap fun l => l.value.toList ++ skipped l)).2 ++
      (s.readAll (ls.flatMap fun l => l.value.toList ++ skipped l)).1.pending =
        held.toList ++ ls := by
  induction ls generalizing s held with
  | nil =>
    have hheld : ∀ m ∈ held, m.kind ≠ .function := fun m hm => by
      cases hm
      exact h.last m rfl
    obtain ⟨-, -, hpending⟩ := h.holds.flush hheld
    simpa [Scan.readAll] using hpending
  | cons l ls ih =>
    obtain ⟨now, hnext, hfound⟩ := h.next
    rw [List.flatMap_cons, readAll_append, lexemesOf_append, List.append_assoc, ih hnext,
      ← List.append_assoc, hfound, List.append_assoc]
    rfl

end Scan

/-- A text that is put together of pieces is normalized piece by piece. -/
theorem normalize_join {ls : List Lexeme} {text : Lexeme → String} {chars : Lexeme → List Char}
    (h : ∀ l ∈ ls, Glyph.normalize (text l).toList = chars l) :
    Glyph.normalize (String.join (ls.map text)).toList = ls.flatMap chars := by
  induction ls with
  | nil => rfl
  | cons l ls ih =>
    obtain ⟨hl, hls⟩ := List.forall_mem_cons.1 h
    rw [List.map_cons, String.join_cons, String.toList_append, Glyph.normalize_append, hl, ih hls,
      List.flatMap_cons]

theorem normalize_spellings {ls : List Lexeme} (h : ∀ l ∈ ls, l.Fits) :
    Glyph.normalize (String.join (ls.map (·.spelling))).toList =
      ls.flatMap (·.value.toList) :=
  normalize_join fun l hl => Lexeme.normalize_spelling (h l hl)

/-- Nothing is lost and nothing added when a legible list is written and read. -/
theorem Legible.lexemes_spelling {ls : List Lexeme} (h : Legible ls) :
    lexemes (String.join (ls.map (·.spelling))) = ls := by
  have hawaits : Scan.Awaits {} none (fun _ => []) ls := {
    holds := .nothing rfl rfl
    foreign := by simp
    fits := h.fits
    joins := h.joins
    apart := h.apart.imp fun _ _ hst hs ht => absurd ht (hst hs)
    open_apart := by simp
    last := h.last }
  have hread := hawaits.readAll
  simp only [List.append_nil] at hread
  rw [lexemes_eq, normalize_spellings h.fits]
  exact hread

end InfixTree
