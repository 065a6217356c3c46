import InfixTree.Proofs.Acceptance
import InfixTree.Proofs.Tree.Written
import InfixTree.Proofs.Yard.Renaming

/-! Trees are read back from their spelling. The tokens a tree is written with are derived
from the grammar as that tree, and their text has the same lexemes; so parsing the text
gives the tree back with other ids. A text that has been regenerated once is therefore
regenerated as it stands. -/
namespace InfixTree

theorem Token.spelling_congr {l r : List Token} (h : l.map (·.toLexeme) = r.map (·.toLexeme)) :
    Token.spelling l = Token.spelling r := by
  have htexts := congrArg (List.map (·.spelling)) h
  rw [List.map_map, List.map_map] at htexts
  exact congrArg String.join htexts

namespace Tree

variable {t : Tree}

theorem lexemes_spelling (h : t.Valid) :
    lexemes t.spelling = (t.written none).map (·.toLexeme) := by
  have hspaced := (derives_written h none).spaced
  have hlegible := hspaced.legible (fits_of_mem_written h none)
  have hread := hlegible.lexemes_spelling
  rw [List.map_map] at hread
  rw [spelling, ← spelling_written h none]
  exact hread

theorem map_toLexeme_tokenize_spelling (h : t.Valid) :
    (tokenize t.spelling).map (·.toLexeme) = (t.written none).map (·.toLexeme) := by
  rw [map_toLexeme_tokenize, lexemes_spelling h]

theorem exists_parseText_spelling (h : t.Valid) :
    ∃ u, parseText t.spelling = .ok u ∧ u.anonymous = t.anonymous := by
  have hparse : parse (t.written none) = .ok t :=
    (Yard.readable_of_derives (derives_written h none)).parse_eq
  obtain ⟨u, hu, hanonymous⟩ :=
    exists_parse_of_toLexeme (map_toLexeme_tokenize_spelling h).symm hparse
  exact ⟨u, parseText_eq_ok.2 hu, hanonymous⟩

end Tree

/-- The text of a tree is that of its own tokens. -/
theorem spelling_tokenize_spelling {t : Tree} (h : t.Valid) :
    Token.spelling (tokenize t.spelling) = t.spelling := by
  rw [Token.spelling_congr (Tree.map_toLexeme_tokenize_spelling h), Tree.spelling_written h none,
    Tree.spelling]

theorem valid_of_parseText {text : String} {t : Tree} (h : parseText text = .ok t) : t.Valid :=
  shaped_of_parse (parseText_eq_ok.1 h) fun _ => fits_of_mem_tokenize

theorem respell_respell {text again : String} (h : respell text = .ok again) :
    respell again = .ok again := by
  unfold respell at h
  cases ht : parseText text with
  | error e =>
    rw [ht] at h
    cases h
  | ok t =>
    rw [ht] at h
    cases h
    obtain ⟨u, hu, hanonymous⟩ := Tree.exists_parseText_spelling (valid_of_parseText ht)
    rw [respell, hu]
    exact congrArg Except.ok (Tree.spelling_eq_of_anonymous hanonymous)

/-- Every valid tree is read back from its spelling, and from the first time on, the text
that is regenerated stays the same. -/
theorem spelling_round_trip : (∀ t : Tree, t.Valid →
      ∃ u, parseText t.spelling = .ok u ∧ u.anonymous = t.anonymous) ∧
    ∀ text again, respell text = .ok again →
      ∀ n, (· >>= respell)^[n + 1] (Except.ok text) = .ok again := by
  refine ⟨fun t ht => Tree.exists_parseText_spelling ht, fun text again h n => ?_⟩
  have hfirst : (.ok text >>= respell) = .ok again := by rw [ok_bind, h]
  have hfixed : (.ok again >>= respell) = .ok again := by rw [ok_bind, respell_respell h]
  rw [Function.iterate_succ_apply, hfirst]
  exact Function.iterate_fixed hfixed n

/-- The difference `a-(b-2)` keeps its parentheses, and `2x-(y)` loses them once. -/
theorem spelling_round_trip_difference :
    let minus : Token := ⟨.ofOperator .subtract, 1⟩
    let a : Token := ⟨.ofLetter 'a', 2⟩
    let b : Token := ⟨.ofLetter 'b', 3⟩
    let two : Token := ⟨.ofDigits ['2'], 4⟩
    let tree := Tree.operation minus (.leaf a) (.operation minus (.leaf b) (.leaf two))
    tree.Valid ∧ tree.spelling = "a - (b - 2)" ∧
      (∃ u, parseText tree.spelling = .ok u ∧ u.anonymous = tree.anonymous) ∧
      respell "2x-(y)" = .ok "2 * x - y" ∧
      ∀ n, (· >>= respell)^[n + 1] (Except.ok "2x-(y)") = .ok "2 * x - y" := by
  intro minus a b two tree
  have hminus : minus.toLexeme.Fits := Lexeme.fits_ofOperator _
  have ha : a.toLexeme.Fits := Lexeme.fits_ofLetter (by decide)
  have hb : b.toLexeme.Fits := Lexeme.fits_ofLetter (by decide)
  have htwo : two.toLexeme.Fits :=
    Lexeme.fits_ofDigits (by decide) (List.forall_mem_singleton.2 (.inl rfl))
  have hvalid : tree.Valid :=
    ⟨⟨_, rfl⟩, hminus, ⟨rfl, ha⟩, ⟨_, rfl⟩, hminus, ⟨rfl, hb⟩, rfl, htwo⟩
  have hrespell : respell "2x-(y)" = .ok "2 * x - y" := rfl
  exact ⟨hvalid, rfl, spelling_round_trip.1 tree hvalid, hrespell,
    spelling_round_trip.2 _ _ hrespell⟩

end InfixTree
