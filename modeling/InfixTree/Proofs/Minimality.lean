import InfixTree.Proofs.Balance
import InfixTree.Proofs.Regeneration

/-! A tree is written with no more parentheses than it needs. Every phrase that means the
tree is at least as long as what the tree is written with, so no pair of parentheses can be
taken out of that. And a phrase that is written differently has a pair to take out: one
around an operand that is tight enough for its place. So the text regenerated for a tree is
the only one in which every pair of parentheses is needed. -/
namespace InfixTree

/-- A pair of parentheses that no function is called with. -/
structure Grouping (ts before : List Token) (p : Token) (inner : List Token) (q : Token)
    (after : List Token) : Prop extends Pair ts before p inner q after where
  no_call : ∀ f ∈ before.getLast?, f.kind ≠ .function

/-- Without the pair the list is parsed as the same tree. -/
structure Redundant (ts before : List Token) (p : Token) (inner : List Token) (q : Token)
    (after : List Token) : Prop extends Grouping ts before p inner q after where
  same : ∃ t, parse ts = .ok t ∧ parse (before ++ (inner ++ after)) = .ok t

/-- Every pair of parentheses is needed. -/
def Minimal (ts : List Token) : Prop :=
  ∀ before p inner q after, ¬ Redundant ts before p inner q after

/-- The phrase has parentheses without which it is one of the rank and means the same. -/
def Spare (rank : Rank) (l : List Token) (a : Tree) : Prop :=
  ∃ before p inner q after, Grouping l before p inner q after ∧
    Derives rank (before ++ (inner ++ after)) a

/-! ### Taking parentheses out -/

namespace Grouping

variable {ts before inner after x y : List Token} {p q : Token}

theorem length_lt (h : Grouping ts before p inner q after) :
    (before ++ (inner ++ after)).length < ts.length := by
  rw [h.eq]
  simp only [List.length_append, List.length_cons]
  omega

theorem within (h : Grouping ts before p inner q after)
    (hx : ∀ f ∈ x.getLast?, f.kind ≠ .function) :
    Grouping (x ++ (ts ++ y)) (x ++ before) p inner q (after ++ y) where
  eq := by rw [h.eq]; simp
  left := h.left
  right := h.right
  balanced := h.balanced
  no_call := fun f hf => by
    rw [List.getLast?_append, Option.mem_def, Option.or_eq_some_iff] at hf
    rcases hf with hf | ⟨-, hf⟩
    · exact h.no_call f hf
    · exact hx f hf

/-- What is left is kept apart, for next to a parenthesis that opens no operand ends, and
next to one that closes none starts. -/
theorem apart (h : Grouping ts before p inner q after) (hts : ts.IsChain Token.Apart) :
    (before ++ (inner ++ after)).IsChain Token.Apart := by
  rw [h.eq] at hts
  obtain ⟨hbefore, hts, hp⟩ := List.isChain_append.1 hts
  obtain ⟨hopen, hts⟩ := List.isChain_cons.1 hts
  obtain ⟨hinner, hts, hq⟩ := List.isChain_append.1 hts
  obtain ⟨hclose, hafter⟩ := List.isChain_cons.1 hts
  refine List.isChain_append.2 ⟨hbefore, List.isChain_append.2 ⟨hinner, hafter, ?_⟩, ?_⟩
  · intro s hs t ht
    have hqt := (hclose t ht).1
    have hsq := (hq s hs q rfl).2
    simp only [h.right, Kind.endsOperand, true_and, and_true] at hqt hsq
    exact ⟨fun h => hqt h.2, fun h => hsq h.1⟩
  · cases inner with
    | nil => exact absurd ⟨h.left, h.right⟩ (hopen q rfl).2
    | cons i inner =>
      rintro s hs t ht
      have hsp := (hp s hs p rfl).1
      have hpt := (hopen t ht).2
      simp only [h.left, Kind.startsOperand, true_and, and_true] at hsp hpt
      exact ⟨fun h => hsp h.1, fun h => hpt h.2⟩

end Grouping

namespace Spare

variable {rank finer : Rank} {l r x y : List Token} {a b : Tree} {t f p q : Token} {o : Operator}

theorem within (h : Spare finer l a) (hx : ∀ f ∈ x.getLast?, f.kind ≠ .function)
    (hderives : ∀ r, Derives finer r a → Derives rank (x ++ (r ++ y)) b) :
    Spare rank (x ++ (l ++ y)) b := by
  obtain ⟨before, p, inner, q, after, hpair, hrest⟩ := h
  refine ⟨x ++ before, p, inner, q, after ++ y, hpair.within hx, ?_⟩
  simpa using hderives _ hrest

theorem loosen (h : Spare finer l a) (hle : rank.floor ≤ finer.floor) : Spare rank l a := by
  obtain ⟨before, p, inner, q, after, hpair, hrest⟩ := h
  exact ⟨before, p, inner, q, after, hpair, hrest.loosen hle⟩

theorem left (h : Spare (o.operandRank .left) l a) (ht : t.kind = .operator o)
    (hr : Derives (o.operandRank .right) r b) : Spare o.rank (l ++ t :: r) (.operation t a b) :=
  h.within (x := []) (by simp) fun _ hl => hl.operation ht hr

theorem right (h : Spare (o.operandRank .right) r b) (ht : t.kind = .operator o)
    (hl : Derives (o.operandRank .left) l a) : Spare o.rank (l ++ t :: r) (.operation t a b) := by
  have hlast : ∀ s ∈ (l ++ [t]).getLast?, s.kind ≠ .function := by simp [ht]
  have hwithin := h.within (y := []) hlast fun _ hr => by simpa using hl.operation ht hr
  simpa using hwithin

theorem group (h : Spare .sum l a) (hp : p.kind = .leftParenthesis)
    (hq : q.kind = .rightParenthesis) : Spare .atom (p :: (l ++ [q])) a :=
  h.within (x := [p]) (by simp [hp]) fun _ hl => .group hp hl hq

theorem call (h : Spare .sum l a) (hf : f.kind = .function) (hp : p.kind = .leftParenthesis)
    (hq : q.kind = .rightParenthesis) : Spare .atom (f :: p :: (l ++ [q])) (.application f a) :=
  h.within (x := [f, p]) (by simp [hp]) fun _ hl => .call hf hp hl hq

end Spare

/-! ### What a phrase of a tree must have -/

namespace Tree

/-- The rank of the phrase that the root of a tree makes of its operands. -/
def rank : Tree → Rank
  | operation t _ _ => (t.operator?.map Operator.rank).getD .atom
  | leaf _ | application _ _ => .atom

variable {t : Token} {o : Operator} {a b : Tree} {outer : Option (Operator × Side)}

theorem rank_operation (ht : t.kind = .operator o) : (operation t a b).rank = o.rank := by
  simp [rank, Lexeme.operator?_eq_some_iff.2 ht]

theorem written_operation (ht : t.kind = .operator o) : (operation t a b).written none =
    a.written (some (o, .left)) ++ t :: b.written (some (o, .right)) := by
  simp [written, Lexeme.operator?_eq_some_iff.2 ht]

/-- In its place a tree is written as it is at the top, with parentheses if it is too loose. -/
theorem written_eq (a : Tree) (outer : Option (Operator × Side)) : a.written outer =
    if (rankUnder outer).floor ≤ a.rank.floor then a.written none
    else Token.enclosed (a.written none) := by
  have hatom : (rankUnder outer).floor ≤ Rank.floor .atom := by cases rankUnder outer <;> decide
  cases a with
  | leaf | application => exact (if_pos hatom).symm
  | operation t a b =>
    cases ht : t.operator? with
    | none => simp [written, rank, ht, hatom]
    | some o =>
      have hkind := Lexeme.operator?_eq_some_iff.1 ht
      rw [rank_operation hkind, written_operation hkind]
      by_cases hle : (rankUnder outer).floor ≤ o.rank.floor
      · simp [written, ht, hle, any_encloses_iff.2 hle]
      · have hencloses := eq_true_of_ne_false (mt any_encloses_iff.1 hle)
        simp [written, ht, hle, hencloses]

end Tree

namespace Derives

variable {rank : Rank} {l r : List Token} {a b : Tree} {t : Token} {o : Operator}
  {outer : Option (Operator × Side)}

/-- A phrase is one of the rank of its tree unless it is an atom. -/
theorem tighten (h : Derives rank l a) : Derives a.rank l a ∨ Derives .atom l a := by
  induction h using operator_induction with
  | loosen _ _ ih => exact ih
  | operation hl ht hr => exact .inl (Tree.rank_operation ht ▸ hl.operation ht hr)
  | operand ht => exact .inr (.operand ht)
  | group hp hl hq => exact .inr (.group hp hl hq)
  | call hf hp hl hq => exact .inr (.call hf hp hl hq)

/-- No phrase of a tree is shorter than what the tree is written with. -/
theorem length_written_le (h : Derives rank l a) (houter : (rankUnder outer).floor ≤ rank.floor) :
    (a.written outer).length ≤ l.length := by
  induction h using operator_induction generalizing outer with
  | loosen _ hle ih => exact ih (Nat.le_trans houter hle)
  | @operation o l r a b t _ ht _ ihl ihr =>
    have hleft := @ihl (some (o, .left)) (Nat.le_refl _)
    have hright := @ihr (some (o, .right)) (Nat.le_refl _)
    rw [Tree.written_eq, Tree.rank_operation ht, if_pos houter, Tree.written_operation ht]
    simp only [List.length_append, List.length_cons]
    omega
  | operand => exact Nat.le_refl _
  | group _ _ _ ih =>
    have hinner := @ih none (Nat.le_refl _)
    rw [Tree.written_eq]
    split_ifs <;> simp only [Token.enclosed, List.length_append, List.length_cons] <;> omega
  | call _ _ _ _ ih =>
    have hinner := @ih none (Nat.le_refl _)
    simp only [Tree.written, Token.enclosed, List.length_append, List.length_cons]
    omega

/-- Parentheses around a phrase are written as those around what its tree is written with. -/
theorem lexemes_group {us : List Token} {p q : Token} (hp : p.kind = .leftParenthesis)
    (hq : q.kind = .rightParenthesis) (hfits : ∀ s ∈ p :: (l ++ [q]), s.toLexeme.Fits)
    (h : l.map (·.toLexeme) = us.map (·.toLexeme)) :
    (p :: (l ++ [q])).map (·.toLexeme) = (Token.enclosed us).map (·.toLexeme) := by
  have hopen : p.toLexeme = Token.opening.toLexeme :=
    (hfits p (by simp)).eq_of_kind rfl hp (by decide) (by decide)
  have hclose : q.toLexeme = Token.closing.toLexeme :=
    (hfits q (by simp)).eq_of_kind rfl hq (by decide) (by decide)
  simp [Token.enclosed, hopen, hclose, h]

/-- A phrase is written as its tree is, or it has parentheses to spare. -/
theorem written_or_spare (h : Derives rank l a) (hfits : ∀ s ∈ l, s.toLexeme.Fits)
    (houter : (rankUnder outer).floor ≤ rank.floor) :
    l.map (·.toLexeme) = (a.written outer).map (·.toLexeme) ∨ Spare (rankUnder outer) l a := by
  induction h using operator_induction generalizing outer with
  | loosen _ hle ih => exact ih hfits (Nat.le_trans houter hle)
  | @operation o l r a b t hl ht hr ihl ihr =>
    obtain ⟨hfitsl, hfitsr⟩ := List.forall_mem_append.1 hfits
    obtain ⟨-, hfitsr⟩ := List.forall_mem_cons.1 hfitsr
    rcases @ihl (some (o, .left)) hfitsl (Nat.le_refl _) with hleft | hspare
    · rcases @ihr (some (o, .right)) hfitsr (Nat.le_refl _) with hright | hspare
      · rw [Tree.written_eq, Tree.rank_operation ht, if_pos houter, Tree.written_operation ht]
        exact .inl (by simp [hleft, hright])
      · exact .inr ((hspare.right ht hl).loosen houter)
    · exact .inr ((hspare.left ht hr).loosen houter)
  | operand => exact .inl rfl
  | @group p q l a hp hl hq ih =>
    by_cases hle : (rankUnder outer).floor ≤ a.rank.floor
    · -- the operand may stand in its place without the pair
      have hpair : Pair (p :: (l ++ [q])) [] p l q [] := ⟨rfl, hp, hq, hl.balanced⟩
      have htight : Derives (rankUnder outer) l a :=
        hl.tighten.elim (·.loosen hle) (·.loosen_atom)
      exact .inr ⟨[], p, l, q, [], ⟨hpair, by simp⟩, by simpa using htight⟩
    · rcases @ih none (fun s hs => hfits s (by simp [hs])) (Nat.le_refl _) with hinner | hspare
      · rw [Tree.written_eq, if_neg hle]
        exact .inl (lexemes_group hp hq hfits hinner)
      · exact .inr ((hspare.group hp hq).loosen houter)
  | @call f p q l a hf hp _ hq ih =>
    obtain ⟨-, hgroup⟩ := List.forall_mem_cons.1 hfits
    rcases @ih none (fun s hs => hgroup s (by simp [hs])) (Nat.le_refl _) with hinner | hspare
    · refine .inl ?_
      rw [List.map_cons, lexemes_group hp hq hgroup hinner]
      rfl
    · exact .inr ((hspare.call hf hp hq).loosen houter)

/-- A phrase is written as its tree is just if all of its parentheses are needed. -/
theorem eq_written_iff (h : Derives .sum l a) (hfits : ∀ s ∈ l, s.toLexeme.Fits) :
    l.map (·.toLexeme) = (a.written none).map (·.toLexeme) ↔ Minimal l := by
  have hparse : ∀ {r b}, Derives .sum r b → parse r = .ok b := fun hr =>
    (Yard.readable_of_derives hr).parse_eq
  constructor
  · intro hwritten before p inner q after hpair
    obtain ⟨b, hb, hrest⟩ := hpair.same
    obtain rfl := Except.ok.inj ((hparse h).symm.trans hb)
    obtain ⟨c, hc⟩ := derivable_of_parse hrest (hpair.apart h.spaced.apart)
    obtain rfl := Except.ok.inj (hrest.symm.trans (hparse hc))
    have hshort : (a.written none).length ≤ _ := hc.length_written_le (Nat.le_refl _)
    have hlength := congrArg List.length hwritten
    rw [List.length_map, List.length_map] at hlength
    have := hpair.length_lt
    omega
  · intro hminimal
    have htop : (rankUnder none).floor ≤ Rank.floor .sum := Nat.le_refl _
    rcases h.written_or_spare hfits htop with hwritten | hspare
    · exact hwritten
    · obtain ⟨before, p, inner, q, after, hpair, hrest⟩ := hspare
      exact absurd ⟨hpair, a, hparse h, hparse hrest⟩ (hminimal before p inner q after)

end Derives

/-! ### Texts -/

section Texts

variable {text : String} {t : Tree}

theorem parseText_of_derives (h : Derives .sum (tokenize text) t) : parseText text = .ok t :=
  parseText_eq_ok.2 (Yard.readable_of_derives h).parse_eq

/-- The text of a tree is derivable, for it is apart where what the tree is written with is. -/
theorem exists_derives_spelling (h : t.Valid) :
    ∃ u, Derives .sum (tokenize t.spelling) u ∧ u.spelling = t.spelling := by
  have hkinds : ∀ l : List Token, l.IsChain Token.Apart ↔
      (l.map (·.toLexeme)).IsChain fun s t => Token.Apart ⟨s, 0⟩ ⟨t, 0⟩ := fun l => by
    rw [List.isChain_map]
    rfl
  have hapart : (tokenize t.spelling).IsChain Token.Apart := by
    rw [hkinds, Tree.map_toLexeme_tokenize_spelling h, ← hkinds]
    exact (Tree.derives_written h none).spaced.apart
  obtain ⟨u, hu, hanonymous⟩ := Tree.exists_parseText_spelling h
  obtain ⟨v, hv⟩ := derivable_of_parse (parseText_eq_ok.1 hu) hapart
  obtain rfl := Except.ok.inj (hu.symm.trans (parseText_of_derives hv))
  exact ⟨u, hv, Tree.spelling_eq_of_anonymous hanonymous⟩

/-- The text of a tree is that of the tokens it was read from just if no parentheses among
them can be left out. -/
theorem spelling_eq_iff_minimal (h : Derives .sum (tokenize text) t) :
    t.spelling = Token.spelling (tokenize text) ↔ Minimal (tokenize text) := by
  have hfits : ∀ s ∈ tokenize text, s.toLexeme.Fits := fun _ => fits_of_mem_tokenize
  have hvalid : t.Valid := valid_of_parseText (parseText_of_derives h)
  have hread := (h.spaced.legible hfits).lexemes_spelling
  rw [List.map_map] at hread
  rw [← h.eq_written_iff hfits]
  constructor
  · intro heq
    rw [← Tree.lexemes_spelling hvalid, heq]
    exact hread.symm
  · intro hwritten
    rw [Token.spelling_congr hwritten, Tree.spelling_written hvalid none, Tree.spelling]

end Texts

/-- A derivable text is regenerated as the text of its own tokens just if all of its parentheses
are needed. All those of a regenerated text are, and no other tokens with the same tree have
only parentheses that are needed. -/
theorem respell_minimal {text : String} (h : Derivable (tokenize text)) :
    (respell text = .ok (Token.spelling (tokenize text)) ↔ Minimal (tokenize text)) ∧
      ∃ t, parseText text = .ok t ∧ respell text = .ok t.spelling ∧
        Minimal (tokenize t.spelling) ∧ Token.spelling (tokenize t.spelling) = t.spelling ∧
        ∀ other u, Derivable (tokenize other) → Minimal (tokenize other) →
          parseText other = .ok u → u.anonymous = t.anonymous →
            Token.spelling (tokenize other) = t.spelling := by
  obtain ⟨t, ht⟩ := h
  have hparse := parseText_of_derives ht
  have hvalid : t.Valid := valid_of_parseText hparse
  have hrespell : respell text = .ok t.spelling := by rw [respell, hparse]; rfl
  refine ⟨by rw [hrespell, Except.ok.injEq, spelling_eq_iff_minimal ht], t, hparse, hrespell, ?_,
    spelling_tokenize_spelling hvalid, fun other u hother hminimal hu hanonymous => ?_⟩
  · obtain ⟨u, hu, hspelling⟩ := exists_derives_spelling hvalid
    rw [← spelling_eq_iff_minimal hu, hspelling, spelling_tokenize_spelling hvalid]
  · obtain ⟨v, hv⟩ := hother
    obtain rfl := Except.ok.inj (hu.symm.trans (parseText_of_derives hv))
    rw [← (spelling_eq_iff_minimal hv).2 hminimal, Tree.spelling_eq_of_anonymous hanonymous]

/-- The parentheses of `a-(b-2)` are all needed, those of `2x-(y)` are not. -/
theorem respell_minimal_difference :
    Derivable (tokenize "a-(b-2)") ∧ Derivable (tokenize "2x-(y)") ∧
      Token.spelling (tokenize "a-(b-2)") = "a - (b - 2)" ∧ Minimal (tokenize "a-(b-2)") ∧
      respell "2x-(y)" = .ok "2 * x - y" ∧ ¬ Minimal (tokenize "2x-(y)") := by
  have hneeded : Derivable (tokenize "a-(b-2)") := derivable_of_parse rfl (by decide)
  have hspare : Derivable (tokenize "2x-(y)") := derivable_of_parse rfl (by decide)
  have hrespell : respell "2x-(y)" = .ok "2 * x - y" := rfl
  refine ⟨hneeded, hspare, rfl, (respell_minimal hneeded).1.1 rfl, hrespell, ?_⟩
  rw [← (respell_minimal hspare).1, hrespell, Except.ok.injEq]
  decide

end InfixTree
