import InfixTree.Proofs.Scan.Runs
import InfixTree.Proofs.Token.Limit

/-! Texts that are read in pieces. A sign ends the run before it and leaves nothing held back, so
all that reading knows of a text that ends in one is that sign; and what follows is read as if
nothing came before it, unless the sign closes a group and what follows opens one. A text that
is cut after a sign has therefore the tokens of its two pieces, and an allocator that goes on from
one piece to the next gives them the ids that it gives to the whole. -/
namespace InfixTree

theorem Glyph.eq_of_ofChar_leftParenthesis {c : Char} (h : ofChar c = .leftParenthesis) :
    c = '(' := by
  unfold ofChar at h
  split_ifs at h with _ _ hc
  · exact hc
  · split at h <;> cases h

namespace Scan

variable {s : Scan} {c : Char} {l : Lexeme} {cs ds : List Char} {last : Option Char}

/-- Everything that is found from a state on to the end of a text. -/
def foundFrom (s : Scan) (cs : List Char) : List Finding :=
  (s.readAll cs).2 ++ (s.readAll cs).1.flush.2

theorem foundFrom_append :
    s.foundFrom (cs ++ ds) = (s.readAll cs).2 ++ (s.readAll cs).1.foundFrom ds := by
  rw [foundFrom, readAll_append, foundFrom, List.append_assoc]

theorem held_nothing (hs : s.Orderly) (hc : Lexeme.ofSign? c = some l) :
    (s.read c).1.letters = [] ∧ (s.read c).1.digits = [] := by
  by_cases hopen : c = '('
  · subst hopen
    rw [read_open]
    unfold openGroup
    split_ifs with hlet hdig hlast
    · exact ⟨rfl, hs.single.resolve_left hlet⟩
    · exact ⟨by simpa using hlet, rfl⟩
    · exact ⟨by simpa using hlet, by simpa using hdig⟩
    · exact ⟨by simpa using hlet, by simpa using hdig⟩
  · rw [read_sign hc hopen]
    exact flush_empties hs.single

/-- The character read last matters only where a group is opened. -/
theorem read_of_last (h : c = '(' → (s.last = some ')' ↔ last = some ')')) :
    ({ s with last } : Scan).read c = s.read c := by
  unfold read
  cases hc : Glyph.ofChar c with
  | digit | letter | foreign => rfl
  | operator | rightParenthesis | comma =>
    simp only [endRun, flush]
    split_ifs <;> rfl
  | leftParenthesis =>
    simp only [openGroup, h (Glyph.eq_of_ofChar_leftParenthesis hc)]
    split_ifs <;> rfl

theorem foundFrom_of_last (h : last = some ')' → cs.head? ≠ some '(') :
    foundFrom { last } cs = foundFrom {} cs := by
  cases cs with
  | nil => rfl
  | cons c cs =>
    have hread : ({ last } : Scan).read c = ({} : Scan).read c := by
      refine read_of_last (s := {}) fun hc => ?_
      simpa [hc] using h
    rw [foundFrom, foundFrom, readAll, readAll, hread]

/-- Reading a text that ends in a sign leaves that sign and nothing else. -/
theorem readAll_of_getLast? (hs : s.Orderly) (hlast : cs.getLast? = some c)
    (hc : Lexeme.ofSign? c = some l) : (s.readAll cs).1 = { last := some c } := by
  obtain ⟨init, rfl⟩ := List.getLast?_eq_some_iff.1 hlast
  obtain ⟨hlet, hdig⟩ := held_nothing (hs.readAll init).1 hc
  rw [readAll_append]
  calc ((s.readAll init).1.read c).1
      = ⟨((s.readAll init).1.read c).1.letters, ((s.readAll init).1.read c).1.digits, some c⟩ := rfl
    _ = { last := some c } := by rw [hlet, hdig]

end Scan

/-- The characters that a text can be cut after. -/
def Glyph.cuts : List Char := ['+', '-', '*', '/', '^', ',', '(', ')', '·', ':']

theorem Glyph.standard_of_mem_cuts {c : Char} (hc : c ∈ cuts) :
    ∃ l, Lexeme.ofSign? (standard c) = some l := by
  have hall : cuts.all fun c => (Lexeme.ofSign? (standard c)).isSome := by decide
  exact Option.isSome_iff_exists.1 (List.all_eq_true.1 hall c hc)

theorem Glyph.standard_eq_parenthesis {c : Char} :
    (standard c = ')' ↔ c = ')') ∧ (standard c = '(' ↔ c = '(') := by
  rw [standard_eq]
  split_ifs <;> simp_all

variable {text more : String} {c : Char}

theorem findings_append (hc : c ∈ Glyph.cuts)
    (htext : (text.toList.filter (!Text.isBlank ·)).getLast? = some c)
    (hmore : c = ')' → (more.toList.filter (!Text.isBlank ·)).head? ≠ some '(') :
    findings (text ++ more) = findings text ++ findings more := by
  obtain ⟨l, hl⟩ := Glyph.standard_of_mem_cuts hc
  have hstart : Scan.Orderly {} := Scan.orderly_of_nil
  have hlast : (Glyph.normalize text.toList).getLast? = some (Glyph.standard c) := by
    rw [Glyph.normalize, List.getLast?_map, htext, Option.map_some]
  have hread := Scan.readAll_of_getLast? hstart hlast hl
  have hhead : (Glyph.normalize more.toList).head? = some '(' →
      (more.toList.filter (!Text.isBlank ·)).head? = some '(' := by
    rw [Glyph.normalize, List.head?_map, Option.map_eq_some_iff]
    rintro ⟨d, hd, hd'⟩
    rwa [← Glyph.standard_eq_parenthesis.2.1 hd']
  have hrest : Scan.foundFrom { last := some (Glyph.standard c) } (Glyph.normalize more.toList) =
      Scan.foundFrom {} (Glyph.normalize more.toList) :=
    Scan.foundFrom_of_last fun hclose hopen =>
      hmore (Glyph.standard_eq_parenthesis.1.1 (Option.some.inj hclose)) (hhead hopen)
  have hflush : Scan.foundFrom {} (Glyph.normalize text.toList) =
      (Scan.readAll {} (Glyph.normalize text.toList)).2 := by
    rw [Scan.foundFrom, hread]
    exact List.append_nil _
  calc findings (text ++ more)
      = Scan.foundFrom {} (Glyph.normalize text.toList ++ Glyph.normalize more.toList) := by
        rw [← Glyph.normalize_append, ← String.toList_append]
        rfl
    _ = (Scan.readAll {} (Glyph.normalize text.toList)).2 ++
          Scan.foundFrom {} (Glyph.normalize more.toList) := by
        rw [Scan.foundFrom_append, hread, hrest]
    _ = findings text ++ findings more := by
        rw [← hflush]
        rfl

theorem lexemes_append (hc : c ∈ Glyph.cuts)
    (htext : (text.toList.filter (!Text.isBlank ·)).getLast? = some c)
    (hmore : c = ')' → (more.toList.filter (!Text.isBlank ·)).head? ≠ some '(') :
    lexemes (text ++ more) = lexemes text ++ lexemes more := by
  rw [lexemes, findings_append hc htext hmore, List.filterMap_append]
  rfl

/-- A text is cut after a sign, but not between a parenthesis that closes a group and one that opens
the next. Its two pieces can be read one after the other just if there are ids for the tokens
of both, and then the two calls have the tokens of one call on the whole text, with the same ids,
and leave the allocator where that call leaves it. -/
theorem tokenizeFrom_append
    (hc : c ∈ ['+', '-', '*', '/', '^', ',', '(', ')', '·', ':'])
    (htext : (text.toList.filter (!Text.isBlank ·)).getLast? = some c)
    (hmore : ¬ (c = ')' ∧ (more.toList.filter (!Text.isBlank ·)).head? = some '('))
    (a : Allocator) :
    (∀ ts us b d, tokenizeFrom a text = (.ok ts, b) → tokenizeFrom b more = (.ok us, d) →
      tokenizeFrom a (text ++ more) = (.ok (ts ++ us), d)) ∧
    ((∃ ts us b d, tokenizeFrom a text = (.ok ts, b) ∧ tokenizeFrom b more = (.ok us, d)) ↔
      a.next + ((tokenize text).length + (tokenize more).length) ≤ 18446744073709551615) := by
  have hlexemes := lexemes_append hc htext fun hclose hopen => hmore ⟨hclose, hopen⟩
  constructor
  · intro ts us b d hfirst hrest
    rw [tokenizeFrom] at hfirst hrest ⊢
    rw [hlexemes, Allocator.number_append hfirst, hrest]
    rfl
  · have hleft : a.next + a.left = 18446744073709551615 := a.next_add_left
    constructor
    · rintro ⟨ts, us, b, d, hfirst, hrest⟩
      obtain ⟨hle, hb⟩ := next_of_tokenizeFrom hfirst
      obtain ⟨hle', -⟩ := next_of_tokenizeFrom hrest
      have hleft' : b.next + b.left = 18446744073709551615 := b.next_add_left
      omega
    · intro hle
      obtain ⟨ts, b, hfirst, -, -, hb⟩ := exists_tokenizeFrom a text (by omega)
      have hleft' : b.next + b.left = 18446744073709551615 := b.next_add_left
      obtain ⟨us, d, hrest, -⟩ := exists_tokenizeFrom b more (by omega)
      exact ⟨ts, us, b, d, hfirst, hrest⟩

/-- The call `f(2x)` ends in a sign, and `·y(3)` begins with one, so ids from 40 on go through both as
through the whole; but between `(a)` and `(b)` the whole has a product that the pieces lack. -/
theorem tokenizeFrom_append_call :
    let a := Allocator.startingAt 40
    ("f(2x) ".toList.filter (!Text.isBlank ·)).getLast? = some ')' ∧
      (" ·y(3)".toList.filter (!Text.isBlank ·)).head? = some '·' ∧
      (∃ ts us b d, tokenizeFrom a "f(2x) " = (.ok ts, b) ∧ tokenizeFrom b " ·y(3)" = (.ok us, d) ∧
        tokenizeFrom a "f(2x)  ·y(3)" = (.ok (ts ++ us), d) ∧ d.next = 51) ∧
      (tokenize "(a)(b)").length = (tokenize "(a)").length + (tokenize "(b)").length + 1 := by
  intro a
  have hlast : ("f(2x) ".toList.filter (!Text.isBlank ·)).getLast? = some ')' := rfl
  have hhead : (" ·y(3)".toList.filter (!Text.isBlank ·)).head? = some '·' := rfl
  have hapart : ¬ (')' = ')' ∧ (" ·y(3)".toList.filter (!Text.isBlank ·)).head? = some '(') := by
    rw [hhead]
    decide
  obtain ⟨hread, hids⟩ := tokenizeFrom_append (by decide) hlast hapart a
  obtain ⟨ts, us, b, d, hfirst, hrest⟩ := hids.2 (by decide)
  refine ⟨hlast, hhead, ⟨ts, us, b, d, hfirst, hrest, hread ts us b d hfirst hrest, ?_⟩, rfl⟩
  rw [(next_of_tokenizeFrom hrest).2, (next_of_tokenizeFrom hfirst).2]
  rfl

end InfixTree
