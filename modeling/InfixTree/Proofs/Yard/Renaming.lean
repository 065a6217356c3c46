import InfixTree.Proofs.Token.Numbering
import InfixTree.Proofs.Yard.Lockstep
import InfixTree.Tokenize
import InfixTree.Tree.Spelling

/-! Ids and values do not matter to parsing. When tokens are renamed and keep their kinds,
the tree is renamed with them, and so is the text that an error gives. In particular a text
whose tokens are numbered from another first id has the same tree but for a shift of the ids,
and trees that are equal up to ids come from lists that are. -/
namespace InfixTree

/-- The token with other ids and values. -/
def Token.rename (r : Nat → Nat) (g : String → String) (t : Token) : Token :=
  ⟨⟨t.kind, g t.value⟩, r t.id⟩

/-- The tree with every token renamed. -/
def Tree.rename (r : Nat → Nat) (g : String → String) : Tree → Tree
  | leaf t => leaf (t.rename r g)
  | application t a => application (t.rename r g) (a.rename r g)
  | operation t a b => operation (t.rename r g) (a.rename r g) (b.rename r g)

/-- Renamed tokens with the trees built on them renamed. -/
def Correspondence.renaming (r : Nat → Nat) (g : String → String) : Correspondence where
  token t u := u = t.rename r g
  forest as bs := bs = as.map (Tree.rename r g)
  text := g
  kind_eq := by rintro t _ rfl; rfl
  value_eq := by rintro t _ rfl; rfl
  length_eq := by rintro as _ rfl; simp
  leaf := by rintro t _ as _ rfl - rfl; rfl
  application := by
    rintro f _ a a' as bs rfl - h
    rw [List.map_cons, List.cons.injEq] at h
    obtain ⟨rfl, rfl⟩ := h
    rfl
  operation := by
    rintro t _ o a a' b b' as bs rfl - h
    rw [List.map_cons, List.map_cons, List.cons.injEq, List.cons.injEq] at h
    obtain ⟨rfl, rfl, rfl⟩ := h
    rfl

theorem parse_map_rename (r : Nat → Nat) (g : String → String) (ts : List Token) :
    parse (ts.map (Token.rename r g)) =
      ((parse ts).map (Tree.rename r g)).mapError (ParseError.mapText g) := by
  have hts : List.Forall₂ (Correspondence.renaming r g).token ts (ts.map (Token.rename r g)) := by
    rw [List.forall₂_map_right_iff]
    exact List.forall₂_same.2 fun _ _ => rfl
  refine (Correspondence.parse rfl hts).eq_map (fun e f he => he) fun a b hab => ?_
  exact (List.cons.inj hab).1

/-! ### Numbering from another id -/

/-- The id of a token when the numbering that began with one begins with another number. -/
def shiftId (first id : Nat) : Nat := id + first - 1

theorem numberFrom_shiftId (ls : List Lexeme) (first n : Nat) :
    (Token.numberFrom (n + 1) ls).map (Token.rename (shiftId first) id) =
      Token.numberFrom (n + first) ls := by
  induction ls generalizing n with
  | nil => rfl
  | cons l ls ih =>
    have hhead : (⟨l, n + 1⟩ : Token).rename (shiftId first) id = ⟨l, n + first⟩ := by
      have hshift : shiftId first (n + 1) = n + first := by
        unfold shiftId
        omega
      rw [← hshift]
      rfl
    have hrest := ih (n + 1)
    rw [Nat.add_right_comm n 1 first] at hrest
    exact congrArg₂ List.cons hhead hrest

/-- A text that an allocator has ids for has the tokens it always has, with ids from the
allocator's next one on. -/
theorem tokenizeFrom_eq_ok {a : Allocator} {text : String}
    (h : (tokenize text).length ≤ a.left) : (tokenizeFrom a text).1 =
      .ok ((tokenize text).map (Token.rename (shiftId a.next) id)) := by
  rw [length_tokenize] at h
  have hshift := numberFrom_shiftId (lexemes text) a.next 0
  rw [Nat.zero_add, Nat.zero_add] at hshift
  rw [tokenizeFrom, Allocator.number_eq, if_pos h, tokenize, hshift]

/-- Parsing looks at the kinds of tokens and at nothing else: with ids and values replaced in
whatever way, the result is the former one with the same replacements in its tree or in the text
that its error gives. So a text is parsed alike whichever id its tokens are numbered from, as
long as there are ids for all of them. -/
theorem parse_renamed :
    (∀ (r : Nat → Nat) (g : String → String) (ts : List Token),
      parse (ts.map (Token.rename r g)) =
        ((parse ts).map (Tree.rename r g)).mapError (ParseError.mapText g)) ∧
    ∀ (text : String) (first : Nat) (h : first < UInt64.size),
      first + (tokenize text).length ≤ 18446744073709551615 →
        ∃ ts, (tokenizeFrom (.startingAt first h) text).1 = .ok ts ∧
          parse ts =
            (parse (tokenize text)).map (Tree.rename (fun i => i + first - 1) fun v => v) := by
  refine ⟨parse_map_rename, fun text first h hfirst => ?_⟩
  have hleft : (tokenize text).length ≤ (Allocator.startingAt first h).left := by
    change (tokenize text).length ≤ 18446744073709551615 - first
    omega
  refine ⟨_, tokenizeFrom_eq_ok hleft, ?_⟩
  have hparse := parse_map_rename (shiftId first) id (tokenize text)
  have herrors : ParseError.mapText id = id := funext ParseError.mapText_id
  rw [herrors] at hparse
  refine hparse.trans ?_
  cases parse (tokenize text) <;> rfl

/-- Numbered from the last id but three, the tokens of `3-x` still get one each; with ids that are
all the same and values that no longer fit, `2+` lacks an operand of the same operator. -/
theorem parse_renamed_difference :
    let first := 18446744073709551612
    let minus : Token := ⟨.ofOperator .subtract, 18446744073709551613⟩
    let three : Token := ⟨.ofDigits ['3'], 18446744073709551612⟩
    let x : Token := ⟨.ofLetter 'x', 18446744073709551614⟩
    (∃ ts, (tokenizeFrom (.startingAt first) "3-x").1 = .ok ts ∧
      parse ts = .ok (.operation minus (.leaf three) (.leaf x))) ∧
    parse ((tokenize "2+").map (Token.rename (fun _ => 7) (· ++ "!"))) =
      .error (.missingOperand "+!") := by
  intro first minus three x
  obtain ⟨hrenamed, hshifted⟩ := parse_renamed
  obtain ⟨ts, hts, hparse⟩ := hshifted "3-x" first (by decide) (by decide)
  exact ⟨⟨ts, hts, hparse⟩, hrenamed (fun _ => 7) (· ++ "!") (tokenize "2+")⟩

/-! ### Trees up to ids -/

/-- The token without its id. -/
def Token.anonymous : Token → Token := Token.rename (fun _ => 0) fun v => v

/-- The tree without ids. -/
def Tree.anonymous : Tree → Tree := Tree.rename (fun _ => 0) fun v => v

theorem Token.anonymous_eq {t u : Token} (hkind : t.kind = u.kind) (hvalue : t.value = u.value) :
    t.anonymous = u.anonymous := by
  simp only [anonymous, rename, hkind, hvalue]

theorem exists_parse_of_toLexeme {ts us : List Token} {a : Tree}
    (h : ts.map (·.toLexeme) = us.map (·.toLexeme)) (ha : parse ts = .ok a) :
    ∃ b, parse us = .ok b ∧ b.anonymous = a.anonymous := by
  have hanonymous : ts.map Token.anonymous = us.map Token.anonymous := by
    have hthrough : ∀ l : List Token, l.map Token.anonymous =
        (l.map (·.toLexeme)).map (⟨·, 0⟩) := by
      intro l
      rw [List.map_map]
      rfl
    rw [hthrough, hthrough, h]
  have hus := parse_map_rename (fun _ => 0) (fun v => v) us
  have hts := parse_map_rename (fun _ => 0) (fun v => v) ts
  rw [← Token.anonymous, hanonymous, Token.anonymous, hus, ha] at hts
  cases hb : parse us with
  | error e =>
    rw [hb] at hts
    cases hts
  | ok b =>
    rw [hb] at hts
    exact ⟨b, rfl, Except.ok.inj hts⟩

theorem Tree.spellUnder_anonymous (t : Tree) (outer : Option (Operator × Side)) :
    t.anonymous.spellUnder outer = t.spellUnder outer := by
  unfold anonymous
  induction t generalizing outer with
  | leaf t => rfl
  | application f a ih => simp only [rename, spellUnder, ih, Token.rename]
  | operation t a b iha ihb => simp only [rename, spellUnder, iha, ihb, Token.rename]

theorem Tree.spelling_eq_of_anonymous {t u : Tree} (h : t.anonymous = u.anonymous) :
    t.spelling = u.spelling := by
  unfold spelling
  rw [← spellUnder_anonymous, h, spellUnder_anonymous]

end InfixTree
