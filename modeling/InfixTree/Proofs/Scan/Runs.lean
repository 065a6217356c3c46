import InfixTree.Proofs.Scan.Spelling
import Mathlib.Data.List.SplitBy

/-! The lexemes of a text, told from its runs. What is left of a text without the characters
outside of the notation falls into runs of digits and points, runs of letters, each as long
as it can be, and single signs. A run and the character after it settle which lexemes the
run has and whether a multiplication is implied between the two. Reading one character at
a time finds the same: the run that it is in is the one it holds back, or a sign that it
has found, and the character that ends the run is the one after it. -/
namespace InfixTree

/-- The lexemes that are written as one sign. -/
def Lexeme.ofSign? : Char → Option Lexeme
  | '+' => some ⟨.operator .add, "+"⟩
  | '-' => some ⟨.operator .subtract, "-"⟩
  | '*' => some ⟨.operator .multiply, "*"⟩
  | '/' => some ⟨.operator .divide, "/"⟩
  | '^' => some ⟨.operator .power, "^"⟩
  | '(' => some ⟨.leftParenthesis, "("⟩
  | ')' => some ⟨.rightParenthesis, ")"⟩
  | ',' => some ⟨.comma, ","⟩
  | _ => none

theorem Lexeme.ofOperator_multiply : ofOperator .multiply = ⟨.operator .multiply, "*"⟩ := rfl

namespace Text

/-- Literals are written in digits and points. -/
def isNumeral (c : Char) : Bool := c.isDigit || c = '.'

def isNotation (c : Char) : Bool := isNumeral c || c.isAlpha || (Lexeme.ofSign? c).isSome

/-- A character with its place in a text. -/
abbrev Placed := Char × Nat

/-- The characters of the notation in a text that is at a place in a longer one. -/
def recognizedFrom (place : Nat) (cs : List Char) : List Placed :=
  (cs.zipIdx place).filter fun (c, _) => isNotation c

/-- Characters of one run that stand side by side: two numerals or two letters. -/
def continues : Placed → Placed → Bool
  | (c, _), (d, _) => isNumeral c && isNumeral d || c.isAlpha && d.isAlpha

abbrev Run := List Placed

/-- The runs of the characters of the notation, as long as they can be. -/
def runs (cs : List Char) : List Run := (recognizedFrom 0 cs).splitBy continues

namespace Run

def chars (run : Run) : List Char := run.map fun (c, _) => c

/-- The lexemes that stand in a run, which are of one kind, so its last character tells
it. Letters are a name before an opening parenthesis and anywhere else variables that are
multiplied. -/
def own (run : Run) (next : Option Placed) : List Lexeme :=
  match run.getLast? with
  | none => []
  | some (c, _) =>
    if isNumeral c then [⟨.literal, String.ofList run.chars⟩]
    else if c.isAlpha then
      if next.any fun (d, _) => d = '(' then [⟨.function, String.ofList run.chars⟩]
      else (run.chars.map fun letter => ⟨.variable, letter.toString⟩).intersperse
        ⟨.operator .multiply, "*"⟩
    else (Lexeme.ofSign? c).toList

/-- The multiplication that is implied between a run and the character after it: between
letters and a numeral, between a numeral and a letter or an opening parenthesis, and
between two parentheses with nothing between them in the text. -/
def implied (run : Run) (next : Option Placed) : List Lexeme :=
  match run.getLast?, next with
  | some (c, i), some (d, j) =>
    if (c.isAlpha && isNumeral d) || (isNumeral c && (d.isAlpha || d = '('))
      || (c = ')' && d = '(' && j = i + 1) then [⟨.operator .multiply, "*"⟩] else []
  | _, _ => []

/-- The lexemes of each run in turn, with the multiplications implied between the runs. -/
def lexemes : List Run → List Lexeme
  | [] => []
  | run :: rest =>
    own run rest.flatten.head? ++ implied run rest.flatten.head? ++ lexemes rest

end Run

variable {c d : Char} {l : Lexeme} {run : Run} {p : Placed} {cs : List Char}

/-! ### Characters -/

theorem isNumeral_iff : isNumeral c ↔ Glyph.ofChar c = .digit := by
  rw [Glyph.ofChar_eq_digit_iff, isNumeral, Bool.or_eq_true, decide_eq_true_eq]

theorem isNumeral_of_isAlpha (h : c.isAlpha) : isNumeral c = false := by
  rw [← Bool.not_eq_true, isNumeral_iff, Glyph.ofChar_eq_letter_iff.2 h]
  simp

theorem isAlpha_of_isNumeral (h : isNumeral c) : c.isAlpha = false := by
  by_contra hletter
  rw [isNumeral_of_isAlpha (by simpa using hletter)] at h
  cases h

theorem not_parenthesis_of_isNumeral (h : isNumeral c) : c ≠ '(' ∧ c ≠ ')' := by
  constructor <;> (rintro rfl; cases h)

theorem not_parenthesis_of_isAlpha (h : c.isAlpha) : c ≠ '(' ∧ c ≠ ')' := by
  constructor <;> (rintro rfl; cases h)

/-- A sign is neither a numeral nor a letter. -/
theorem not_run_of_ofSign? (h : Lexeme.ofSign? c = some l) :
    isNumeral c = false ∧ c.isAlpha = false := by
  unfold Lexeme.ofSign? at h
  split at h <;> first | decide | cases h

theorem kind_of_ofSign? (h : Lexeme.ofSign? c = some l) :
    (l.kind = .leftParenthesis ↔ c = '(') ∧ (l.kind = .rightParenthesis ↔ c = ')') := by
  unfold Lexeme.ofSign? at h
  split at h <;> cases h <;> decide

theorem isNotation_iff : isNotation c ↔ Glyph.ofChar c ≠ .foreign := by
  constructor
  · intro h
    simp only [isNotation, Bool.or_eq_true] at h
    rcases h with (h | h) | h
    · simp [isNumeral_iff.1 h]
    · simp [Glyph.ofChar_eq_letter_iff.2 h]
    · unfold Lexeme.ofSign? at h
      split at h <;> first | decide | cases h
  · intro h
    rcases Glyph.not_foreign_iff.1 h with (h | h) | h
    · simp [isNotation, isNumeral, h]
    · simp [isNotation, h]
    · have hall : Glyph.signs.all isNotation := by decide
      exact List.all_eq_true.1 hall c h

theorem isNotation_cases (h : isNotation c) :
    isNumeral c ∨ c.isAlpha ∨ ∃ l, Lexeme.ofSign? c = some l := by
  simp only [isNotation, Bool.or_eq_true, Option.isSome_iff_exists] at h
  tauto

theorem recognizedFrom_cons (place : Nat) : recognizedFrom place (c :: cs) =
    if isNotation c then (c, place) :: recognizedFrom (place + 1) cs
    else recognizedFrom (place + 1) cs := by
  simp only [recognizedFrom, List.zipIdx_cons, List.filter_cons]

/-! ### Runs -/

theorem continues_numeral {q : Placed} (h : isNumeral p.1) : continues p q = isNumeral q.1 := by
  simp [continues, h, isAlpha_of_isNumeral h]

theorem continues_letter {q : Placed} (h : p.1.isAlpha) : continues p q = q.1.isAlpha := by
  simp [continues, h, isNumeral_of_isAlpha h]

theorem continues_sign {q : Placed} (h : Lexeme.ofSign? p.1 = some l) : continues p q = false := by
  simp [continues, not_run_of_ofSign? h]

namespace Run

variable {next : Option Placed}

theorem chars_ne (hne : run ≠ []) : run.chars ≠ [] := by simpa [chars] using hne

theorem own_numerals (hne : run ≠ []) (hall : ∀ p ∈ run, isNumeral p.1) :
    run.own next = [.ofDigits run.chars] := by
  have hlast := hall _ (List.getLast_mem hne)
  simp [own, List.getLast?_eq_some_getLast hne, hlast, Lexeme.ofDigits]

theorem own_letters (hne : run ≠ []) (hall : ∀ p ∈ run, p.1.isAlpha) : run.own next =
    if next.any (fun p => p.1 = '(') then [.ofName run.chars]
    else (run.chars.map .ofLetter).intersperse (.ofOperator .multiply) := by
  have hlast := hall _ (List.getLast_mem hne)
  simp only [own, List.getLast?_eq_some_getLast hne, hlast, isNumeral_of_isAlpha hlast]
  rfl

theorem own_sign (h : Lexeme.ofSign? c = some l) (i : Nat) : own [(c, i)] next = [l] := by
  simp [own, not_run_of_ofSign? h, h]

theorem implied_numerals {q : Placed} (hne : run ≠ []) (hall : ∀ p ∈ run, isNumeral p.1) :
    run.implied (some q) =
      if q.1.isAlpha || q.1 = '(' then [.ofOperator .multiply] else [] := by
  have hlast := hall _ (List.getLast_mem hne)
  have hclose := (not_parenthesis_of_isNumeral hlast).2
  simp [implied, List.getLast?_eq_some_getLast hne, hlast, isAlpha_of_isNumeral hlast, hclose,
    Lexeme.ofOperator_multiply]

theorem implied_letters {q : Placed} (hne : run ≠ []) (hall : ∀ p ∈ run, p.1.isAlpha) :
    run.implied (some q) = if isNumeral q.1 then [.ofOperator .multiply] else [] := by
  have hlast := hall _ (List.getLast_mem hne)
  have hclose := (not_parenthesis_of_isAlpha hlast).2
  simp [implied, List.getLast?_eq_some_getLast hne, hlast, isNumeral_of_isAlpha hlast, hclose,
    Lexeme.ofOperator_multiply]

theorem implied_sign {q : Placed} (h : Lexeme.ofSign? c = some l) (i : Nat) :
    implied [(c, i)] (some q) =
      if c = ')' ∧ q.1 = '(' ∧ q.2 = i + 1 then [.ofOperator .multiply] else [] := by
  simp [implied, not_run_of_ofSign? h, and_assoc, Lexeme.ofOperator_multiply]

/-- The last run. -/
theorem lexemes_last (hrun : run.IsChain fun p q => continues p q) :
    lexemes (run.splitBy continues) = run.own none := by
  cases run with
  | nil => rfl
  | cons p run =>
    rw [List.splitBy_of_isChain (List.cons_ne_nil p run) hrun]
    simp [lexemes, implied]

/-- A run that the next character does not go on with. -/
theorem lexemes_cons {rest : List Placed} (hrun : run.IsChain fun p q => continues p q)
    (hp : ∀ q ∈ run.getLast?, continues q p = false) :
    lexemes ((run ++ p :: rest).splitBy continues) =
      run.own (some p) ++ run.implied (some p) ++ lexemes ((p :: rest).splitBy continues) := by
  cases run with
  | nil => rfl
  | cons q run =>
    rw [List.splitBy_append_cons rest hp, List.splitBy_of_isChain (List.cons_ne_nil q run) hrun]
    simp [lexemes]

end Run

end Text

namespace Scan

open Text

variable {s : Scan} {c : Char} {l : Lexeme}

theorem read_sign (h : Lexeme.ofSign? c = some l) (hc : c ≠ '(') :
    s.read c = ({ (s.endRun l).1 with last := some c }, (s.endRun l).2) := by
  unfold Lexeme.ofSign? at h
  split at h <;> first | exact absurd rfl hc | (cases h <;> rfl)

theorem read_open : s.read '(' = ({ s.openGroup.1 with last := some '(' }, s.openGroup.2) := rfl

theorem read_outside (h : isNotation c = false) :
    s.read c = ({ s with last := some c }, [.skipped c]) := by
  have hc : Glyph.ofChar c = .foreign := by
    by_contra hne
    rw [isNotation_iff.2 hne] at h
    cases h
  exact read_foreign hc

theorem lexemesOf_variables (cs : List Char) :
    lexemesOf ((cs.map (.written <| .ofLetter ·)).intersperse .implied) =
      (cs.map Lexeme.ofLetter).intersperse (.ofOperator .multiply) := by
  induction cs with
  | nil => rfl
  | cons c cs ih =>
    cases cs with
    | nil => rfl
    | cons d ds => simpa using ih

theorem lexemesOf_factors {cs : List Char} (h : cs ≠ []) :
    lexemesOf (cs.flatMap fun c => [.written (.ofLetter c), .implied]) =
      (cs.map Lexeme.ofLetter).intersperse (.ofOperator .multiply) ++ [.ofOperator .multiply] := by
  induction cs with
  | nil => exact absurd rfl h
  | cons c cs ih =>
    cases cs with
    | nil => rfl
    | cons d ds => simpa using ih (List.cons_ne_nil d ds)

/-- The run that reading is in before a place, and those of its lexemes that have been found:
a run of digits or letters is held back, and a sign is found at once. The character read
last is a closing parenthesis just if that is the sign and stands right before the place. -/
inductive Follows (s : Scan) (place : Nat) : Run → List Lexeme → Prop
  | start : s.letters = [] → s.digits = [] → s.last ≠ some ')' → Follows s place [] []
  | numerals {run : Run} : run ≠ [] → (∀ p ∈ run, isNumeral p.1) → s.letters = [] →
    s.digits = run.chars → Follows s place run []
  | letters {run : Run} : run ≠ [] → (∀ p ∈ run, p.1.isAlpha) → s.letters = run.chars →
    s.digits = [] → Follows s place run []
  | sign {c : Char} {l : Lexeme} {i : Nat} : Lexeme.ofSign? c = some l → s.letters = [] →
    s.digits = [] → i < place → (s.last = some ')' ↔ c = ')' ∧ place = i + 1) →
    Follows s place [(c, i)] [l]

namespace Follows

variable {place : Nat} {run : Run} {done : List Lexeme} {next : Option Placed}

theorem isChain (h : s.Follows place run done) : run.IsChain fun p q => continues p q := by
  cases h with
  | start | sign => simp
  | numerals _ hall =>
    refine (List.pairwise_of_forall_mem_list fun p hp q hq => ?_).isChain
    simp [continues, hall p hp, hall q hq]
  | letters _ hall =>
    refine (List.pairwise_of_forall_mem_list fun p hp q hq => ?_).isChain
    simp [continues, hall p hp, hall q hq]

theorem single (h : s.Follows place run done) : s.letters = [] ∨ s.digits = [] := by
  cases h with
  | start hlet | numerals _ _ hlet | sign _ hlet => exact .inl hlet
  | letters _ _ _ hdig => exact .inr hdig

/-- What is held back is found as the lexemes of the run, unless a group is opened. -/
theorem pending (h : s.Follows place run done) (hnext : ∀ p ∈ next, p.1 ≠ '(') :
    done ++ s.pending = run.own next := by
  have hopen : next.any (fun p => p.1 = '(') = false := by
    cases next with
    | none => rfl
    | some p => simpa using hnext p rfl
  cases h with
  | start hlet hdig =>
    rw [Scan.pending, flush_nothing hlet hdig]
    rfl
  | numerals hne hall hlet hdig =>
    have hchars := Run.chars_ne hne
    rw [Scan.pending, flush_digits hlet (hdig ▸ hchars), hdig]
    rw [Run.own_numerals hne hall]
    rfl
  | letters hne hall hlet hdig =>
    have hchars := Run.chars_ne hne
    rw [Scan.pending, flush_letters (hlet ▸ hchars), hlet, lexemesOf_variables]
    rw [Run.own_letters hne hall, hopen]
    rfl
  | sign hl hlet hdig =>
    rw [Scan.pending, flush_nothing hlet hdig, Run.own_sign hl]
    rfl

/-- A character that goes on with the run is held back. -/
theorem extend (h : s.Follows place run done) (hne : run ≠ [])
    (hc : ∀ p ∈ run.getLast?, continues p (c, place)) :
    done = [] ∧ (s.read c).2 = [] ∧ (s.read c).1.Follows (place + 1) (run ++ [(c, place)]) [] := by
  cases h with
  | start => exact absurd rfl hne
  | numerals _ hall hlet hdig =>
    have hnum : isNumeral c := by
      rw [← continues_numeral (hall _ (List.getLast_mem hne)) (q := (c, place))]
      exact hc _ (List.getLast?_eq_some_getLast hne)
    rw [read_digit (isNumeral_iff.1 hnum), hlet, hdig]
    refine ⟨rfl, rfl, .numerals (by simp) ?_ rfl (by simp [Run.chars])⟩
    exact List.forall_mem_append.2 ⟨hall, List.forall_mem_singleton.2 hnum⟩
  | letters _ hall hlet hdig =>
    have hletter : c.isAlpha := by
      rw [← continues_letter (hall _ (List.getLast_mem hne)) (q := (c, place))]
      exact hc _ (List.getLast?_eq_some_getLast hne)
    rw [read_letter (Glyph.ofChar_eq_letter_iff.2 hletter), hlet, hdig]
    refine ⟨rfl, rfl, .letters (by simp) ?_ (by simp [Run.chars]) rfl⟩
    exact List.forall_mem_append.2 ⟨hall, List.forall_mem_singleton.2 hletter⟩
  | sign hl =>
    have := hc _ rfl
    rw [continues_sign hl] at this
    cases this

/-- Numerals after letters multiply each of them. -/
theorem turn_numeral (h : s.Follows place run done) (hc : isNumeral c)
    (hrun : ∀ p ∈ run.getLast?, continues p (c, place) = false) :
    (s.read c).1.Follows (place + 1) [(c, place)] [] ∧ done ++ lexemesOf (s.read c).2 =
      run.own (some (c, place)) ++ run.implied (some (c, place)) := by
  have hopen := (not_parenthesis_of_isNumeral hc).1
  rw [read_digit (isNumeral_iff.1 hc)]
  have hfollows : s.digits = [] →
      Follows ⟨[], s.digits ++ [c], some c⟩ (place + 1) [(c, place)] [] := fun hdig =>
    .numerals (by simp) (by simpa using hc) rfl (by simp [hdig, Run.chars])
  cases h with
  | start hlet hdig =>
    refine ⟨hfollows hdig, ?_⟩
    rw [hlet]
    rfl
  | numerals hne hall =>
    have := hrun _ (List.getLast?_eq_some_getLast hne)
    rw [continues_numeral (hall _ (List.getLast_mem hne)), hc] at this
    cases this
  | letters hne hall hlet hdig =>
    refine ⟨hfollows hdig, ?_⟩
    have hchars := Run.chars_ne hne
    rw [hlet, List.nil_append, lexemesOf_factors hchars, Run.own_letters hne hall,
      Run.implied_letters hne hall]
    simp [hopen, hc]
  | sign hl hlet hdig =>
    refine ⟨hfollows hdig, ?_⟩
    rw [hlet, Run.own_sign hl, Run.implied_sign hl]
    simp [hopen]

/-- Letters after numerals multiply the literal. -/
theorem turn_letter (h : s.Follows place run done) (hc : c.isAlpha)
    (hrun : ∀ p ∈ run.getLast?, continues p (c, place) = false) :
    (s.read c).1.Follows (place + 1) [(c, place)] [] ∧ done ++ lexemesOf (s.read c).2 =
      run.own (some (c, place)) ++ run.implied (some (c, place)) := by
  have hopen := (not_parenthesis_of_isAlpha hc).1
  rw [read_letter (Glyph.ofChar_eq_letter_iff.2 hc)]
  have hfollows : s.letters = [] →
      Follows ⟨s.letters ++ [c], [], some c⟩ (place + 1) [(c, place)] [] := fun hlet =>
    .letters (by simp) (by simpa using hc) (by simp [hlet, Run.chars]) rfl
  cases h with
  | start hlet hdig =>
    refine ⟨hfollows hlet, ?_⟩
    rw [if_pos hdig]
    rfl
  | numerals hne hall hlet hdig =>
    refine ⟨hfollows hlet, ?_⟩
    have hchars := Run.chars_ne hne
    rw [hdig, if_neg hchars, Run.own_numerals hne hall, Run.implied_numerals hne hall]
    simp [hc]
  | letters hne hall =>
    have := hrun _ (List.getLast?_eq_some_getLast hne)
    rw [continues_letter (hall _ (List.getLast_mem hne)), hc] at this
    cases this
  | sign hl hlet hdig =>
    refine ⟨hfollows hlet, ?_⟩
    rw [if_pos hdig, Run.own_sign hl, Run.implied_sign hl]
    simp [hopen]

/-- A sign ends the run, and nothing is implied before it but at an opening parenthesis. -/
theorem turn_sign (h : s.Follows place run done) (hl : Lexeme.ofSign? c = some l)
    (hopen : c ≠ '(') :
    (s.read c).1.Follows (place + 1) [(c, place)] [l] ∧ done ++ lexemesOf (s.read c).2 =
      run.own (some (c, place)) ++ run.implied (some (c, place)) ++ [l] := by
  obtain ⟨hnum, hletter⟩ := not_run_of_ofSign? hl
  have hpending : done ++ s.pending = run.own (some (c, place)) :=
    h.pending (by simpa using hopen)
  have himplied : run.implied (some (c, place)) = [] := by
    cases h with
    | start => rfl
    | numerals hne hall => simp [Run.implied_numerals hne hall, hletter, hopen]
    | letters hne hall => simp [Run.implied_letters hne hall, hnum]
    | sign hm => simp [Run.implied_sign hm, hopen]
  have hflush := flush_empties h.single
  rw [read_sign hl hopen, himplied, ← hpending]
  refine ⟨.sign hl hflush.1 hflush.2 (Nat.lt_succ_self place) (by simp), ?_⟩
  simp [endRun, Scan.pending]

/-- An opening parenthesis after letters makes them a name, and after a numeral or right
after a closing parenthesis it implies a multiplication. -/
theorem turn_open (h : s.Follows place run done) :
    (s.read '(').1.Follows (place + 1) [('(', place)] [.leftParenthesis] ∧
      done ++ lexemesOf (s.read '(').2 =
        run.own (some ('(', place)) ++ run.implied (some ('(', place)) ++ [.leftParenthesis] := by
  have hfollows : ∀ u : Scan, u.letters = [] → u.digits = [] →
      Follows { u with last := some '(' } (place + 1) [('(', place)] [.leftParenthesis] :=
    fun u hlet hdig => .sign rfl hlet hdig (Nat.lt_succ_self place) (by simp)
  rw [read_open]
  cases h with
  | start hlet hdig hlast =>
    have hopen : s.openGroup = (s, [.written .leftParenthesis]) := by
      simp [Scan.openGroup, hlet, hdig, hlast]
    rw [hopen]
    exact ⟨hfollows s hlet hdig, rfl⟩
  | numerals hne hall hlet hdig =>
    have hchars := Run.chars_ne hne
    have hopen : s.openGroup = ({ s with digits := [] },
        [.written (.ofDigits s.digits), .implied, .written .leftParenthesis]) := by
      simp [Scan.openGroup, hlet, hdig, hchars]
    rw [hopen, Run.own_numerals hne hall, Run.implied_numerals hne hall, hdig]
    exact ⟨hfollows _ hlet rfl, by simp⟩
  | letters hne hall hlet hdig =>
    have hchars := Run.chars_ne hne
    have hopen : s.openGroup = ({ s with letters := [] },
        [.written (.ofName s.letters), .written .leftParenthesis]) := by
      simp [Scan.openGroup, hlet, hchars]
    rw [hopen, Run.own_letters hne hall, Run.implied_letters hne hall, hlet]
    exact ⟨hfollows _ rfl hdig, rfl⟩
  | @sign d l i hl hlet hdig hlt hlast =>
    have hopen : s.openGroup = (s, if s.last = some ')' then
        [.implied, .written .leftParenthesis] else [.written .leftParenthesis]) := by
      simp [Scan.openGroup, hlet, hdig, apply_ite]
    rw [hopen, Run.own_sign hl, Run.implied_sign hl]
    refine ⟨hfollows s hlet hdig, ?_⟩
    by_cases h : d = ')' ∧ place = i + 1
    · simp [h, hlast.2 h]
    · simp [h, hlast]

/-- Any other character ends the run and begins its own. -/
theorem turn (h : s.Follows place run done) (hc : isNotation c)
    (hrun : ∀ p ∈ run.getLast?, continues p (c, place) = false) :
    ∃ found, (s.read c).1.Follows (place + 1) [(c, place)] found ∧
      done ++ lexemesOf (s.read c).2 =
        run.own (some (c, place)) ++ run.implied (some (c, place)) ++ found := by
  rcases isNotation_cases hc with hnum | hletter | ⟨l, hl⟩
  · obtain ⟨hfollows, hfound⟩ := h.turn_numeral hnum hrun
    exact ⟨[], hfollows, by rw [hfound, List.append_nil]⟩
  · obtain ⟨hfollows, hfound⟩ := h.turn_letter hletter hrun
    exact ⟨[], hfollows, by rw [hfound, List.append_nil]⟩
  · by_cases hopen : c = '('
    · subst hopen
      exact ⟨_, h.turn_open⟩
    · exact ⟨_, h.turn_sign hl hopen⟩

theorem outside (h : s.Follows place run done) (hc : isNotation c = false) :
    (s.read c).1.Follows (place + 1) run done := by
  have hclose : c ≠ ')' := by
    rintro rfl
    cases hc
  rw [read_outside hc]
  cases h with
  | start hlet hdig => exact .start hlet hdig (by simpa using hclose)
  | numerals hne hall hlet hdig => exact .numerals hne hall hlet hdig
  | letters hne hall hlet hdig => exact .letters hne hall hlet hdig
  | sign hl hlet hdig hlt =>
    refine .sign hl hlet hdig (Nat.lt_succ_of_lt hlt) ?_
    simp only [Option.some.injEq, hclose, false_iff]
    omega

theorem readAll (h : s.Follows place run done) (cs : List Char) :
    done ++ (lexemesOf (s.readAll cs).2 ++ (s.readAll cs).1.pending) =
      Run.lexemes ((run ++ recognizedFrom place cs).splitBy continues) := by
  induction cs generalizing s place run done with
  | nil =>
    rw [Scan.readAll, recognizedFrom, List.zipIdx_nil, List.filter_nil, List.append_nil]
    have hnone : ∀ p ∈ (none : Option Placed), p.1 ≠ '(' := by simp
    exact (h.pending hnone).trans (Run.lexemes_last h.isChain).symm
  | cons c cs ih =>
    rw [Scan.readAll, recognizedFrom_cons]
    simp only [lexemesOf_append, List.append_assoc]
    by_cases hc : isNotation c
    · rw [if_pos hc]
      by_cases hrun : ∀ p ∈ run.getLast?, continues p (c, place) = false
      · obtain ⟨found, hnext, hfound⟩ := h.turn hc hrun
        rw [Run.lexemes_cons h.isChain hrun, ← List.append_assoc, hfound, List.append_assoc]
        exact congrArg _ (ih hnext)
      · push Not at hrun
        obtain ⟨p, hp, hcont⟩ := hrun
        have hne : run ≠ [] := by
          rintro rfl
          cases hp
        obtain ⟨rfl, hfound, hnext⟩ := h.extend hne fun q hq => by
          rw [Option.mem_unique hq hp]
          simpa using hcont
        have := ih hnext
        rw [hfound]
        simpa using this
    · rw [if_neg hc, read_outside (by simpa using hc)]
      have := ih (h.outside (by simpa using hc))
      rw [read_outside (by simpa using hc)] at this
      simpa using this

end Follows

end Scan

theorem lexemes_eq_runs (text : String) :
    lexemes text = Text.Run.lexemes (Text.runs (Glyph.normalize text.toList)) := by
  have hstart : Scan.Follows {} 0 [] [] := .start rfl rfl (by simp)
  rw [lexemes_eq]
  exact hstart.readAll _

/-- The alternative signs, as they are read. -/
theorem Glyph.standard_eq (c : Char) :
    standard c = if c = '·' then '*' else if c = ':' then '/' else c := by
  unfold standard
  split <;> simp_all

/-- The tokens of a text are the lexemes of its runs with the multiplications implied
between them, numbered from one. The text is taken without its blanks and with a middle
dot for a product and a colon for a quotient. -/
theorem tokenize_eq_runs (text : String) :
    let plain := (text.toList.filter (!Text.isBlank ·)).map fun c =>
      if c = '·' then '*' else if c = ':' then '/' else c
    (tokenize text).map (·.toLexeme) = Text.Run.lexemes (Text.runs plain) ∧
      (tokenize text).map (·.id) = List.range' 1 (tokenize text).length := by
  intro plain
  have hplain : Glyph.normalize text.toList = plain :=
    List.map_congr_left fun c _ => Glyph.standard_eq c
  constructor
  · rw [map_toLexeme_tokenize, lexemes_eq_runs, hplain]
  · rw [map_id_tokenize]

end InfixTree
