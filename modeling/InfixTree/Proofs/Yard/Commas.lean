import InfixTree.Proofs.Yard.Nesting

/-! Commas. None is ever accepted, and where one is read it is blamed on the function whose group
it stands in, if there is one. Groups that are closed have left no parenthesis on the stack,
so the topmost one that waits there is that of the innermost group still open, and below it
waits what waited when that group was opened: the function it belongs to, if the token right
before it is one. -/
namespace InfixTree

open Token

namespace Yard

variable {ts before inner ops us : List Token} {p f c : Token} {y : Yard}

/-! ### What waits at a comma -/

theorem mem_head?_iff (h : readAll {} ts = .ok y)
    (hts : ts.IsChain fun f p => f.kind = .function → p.kind = .leftParenthesis)
    (hf : f.kind = .function) : f ∈ y.operators.head? ↔ f ∈ ts.getLast? := by
  have hread : ∀ g ∈ ts.getLast?, g.kind = .function → g ∈ y.operators.head? := by
    intro g hg hkind
    obtain ⟨us, rfl⟩ := List.getLast?_eq_some_iff.1 hg
    rw [readAll_concat, bind_eq_ok] at h
    obtain ⟨z, -, h⟩ := h
    simp only [step, hkind, Except.ok.injEq] at h
    rw [← h]
    rfl
  constructor
  · intro hhead
    obtain ⟨g, hg, hkind⟩ := (functionsBelow h hts).top f hhead hf
    rwa [Option.mem_unique hhead (hread g hg hkind)]
  · exact fun hlast => hread f hlast hf

/-- Above the parenthesis of the innermost open group no other one waits, and below it waits
what waited when the group was opened. -/
theorem operators_of_unclosed (h : readAll {} ts = .ok y) (hts : Unclosed ts before p inner) :
    ∃ z us, readAll {} before = .ok z ∧ y.operators = us ++ p :: z.operators ∧
      ∀ w ∈ us, w.kind ≠ .leftParenthesis := by
  obtain ⟨rfl, hp, hinner⟩ := hts
  rw [readAll_append, bind_eq_ok] at h
  obtain ⟨z, hz, h⟩ := h
  rw [readAll_cons, step_leftParenthesis hp, ok_bind] at h
  -- what comes after the parenthesis closes nothing but its own groups, so it is read above it
  have hread : Alike (z.above p) _ _ := above_readAll hp hinner.closesOpened
  rw [h] at hread
  obtain ⟨x, hx, rfl⟩ := hread.ok_right
  refine ⟨z, x.operators, hz, rfl, fun w hw hkind => ?_⟩
  have hdepth := (tallies_readAll hx).depth_eq
  have hcount : 0 < x.operators.countP (·.kind = .leftParenthesis) :=
    List.countP_pos_iff.2 ⟨w, hw, by simpa using hkind⟩
  rw [hinner.depth_eq] at hdepth
  omega

theorem ne_leftParenthesis_of_closed (h : readAll {} ts = .ok y)
    (hts : ∀ before p inner, ¬ Unclosed ts before p inner) :
    ∀ w ∈ y.operators, w.kind ≠ .leftParenthesis := by
  intro w hw hkind
  have hcount : 0 < y.operators.countP (·.kind = .leftParenthesis) :=
    List.countP_pos_iff.2 ⟨w, hw, by simpa using hkind⟩
  have hdepth : 0 < depth ts := by
    rw [(tallies_readAll h).depth_eq]
    omega
  obtain ⟨before, p, inner, hunclosed⟩ := exists_unclosed hdepth
  exact hts before p inner hunclosed

/-! ### What a comma is blamed on -/

theorem commaError_append (hus : ∀ w ∈ us, w.kind ≠ .leftParenthesis) :
    commaError (us ++ ops) = commaError ops := by
  unfold commaError
  rw [List.dropWhile_append_of_pos fun w hw => by simpa using hus w hw]

theorem commaError_call (hp : p.kind = .leftParenthesis) (hf : f.kind = .function) :
    commaError (p :: f :: ops) = .multipleArguments f.value := by
  simp [commaError, hp, hf]

theorem commaError_group (hp : p.kind = .leftParenthesis)
    (hops : ∀ f ∈ ops.head?, f.kind ≠ .function) : commaError (p :: ops) = .misplacedComma := by
  cases ops with
  | nil => simp [commaError, hp]
  | cons f rest => simp [commaError, hp, hops f rfl]

theorem commaError_of_call (h : readAll {} ts = .ok y) (hts : Unclosed ts before p inner)
    (hbefore : before.IsChain fun f p => f.kind = .function → p.kind = .leftParenthesis)
    (hf : f ∈ before.getLast?) (hkind : f.kind = .function) :
    commaError y.operators = .multipleArguments f.value := by
  obtain ⟨z, us, hz, hops, hus⟩ := operators_of_unclosed h hts
  obtain ⟨rest, hrest⟩ := List.head?_eq_some_iff.1 ((mem_head?_iff hz hbefore hkind).2 hf)
  rw [hops, commaError_append hus, hrest, commaError_call hts.left hkind]

theorem commaError_of_group (h : readAll {} ts = .ok y) (hts : Unclosed ts before p inner)
    (hbefore : before.IsChain fun f p => f.kind = .function → p.kind = .leftParenthesis)
    (hlast : ∀ f ∈ before.getLast?, f.kind ≠ .function) :
    commaError y.operators = .misplacedComma := by
  obtain ⟨z, us, hz, hops, hus⟩ := operators_of_unclosed h hts
  rw [hops, commaError_append hus, commaError_group hts.left]
  exact fun f hf hkind => hlast f ((mem_head?_iff hz hbefore hkind).1 hf) hkind

theorem commaError_of_closed (h : readAll {} ts = .ok y)
    (hts : ∀ before p inner, ¬ Unclosed ts before p inner) :
    commaError y.operators = .misplacedComma := by
  have hnone : commaError (y.operators ++ []) = commaError [] :=
    commaError_append (ne_leftParenthesis_of_closed h hts)
  rwa [List.append_nil] at hnone

end Yard

theorem parse_of_comma {ts : List Token} {y : Yard} {c : Token} (h : Yard.readAll {} ts = .ok y)
    (hc : c.kind = .comma) (after : List Token) :
    parse (ts ++ c :: after) = .error (Yard.commaError y.operators) := by
  simp only [parse, arrange, Yard.readAll_append, h, ok_bind, Yard.readAll_cons, Yard.step, hc]
  rfl

/-- Commas are never accepted. If nothing is wrong before the first one, it gives a function too
many arguments where it stands in that function's group and not in a group within, and is out of
place where the innermost open group is no call or no group is open; what comes after it is
not looked at. -/
theorem commas_refused :
    (∀ ts : List Token, (∃ c ∈ ts, c.kind = .comma) → ∃ e, parse ts = .error e) ∧
    ∀ (ts : List Token) (c : Token) (after : List Token), FunctionsCall (ts ++ c :: after) →
      c.kind = .comma → (∃ y, Yard.readAll {} ts = .ok y) →
      (∀ before p inner, Unclosed ts before p inner → ∀ f ∈ before.getLast?,
        f.kind = .function → parse (ts ++ c :: after) = .error (.multipleArguments f.value)) ∧
      ((∀ before p inner, ¬ Unclosed ts before p inner) ∨
        (∃ before p inner, Unclosed ts before p inner ∧
          ∀ f ∈ before.getLast?, f.kind ≠ .function) →
        parse (ts ++ c :: after) = .error .misplacedComma) ∧
      ∀ after', parse (ts ++ c :: after') = parse (ts ++ c :: after) := by
  constructor
  · rintro ts ⟨c, hc, hkind⟩
    cases h : parse ts with
    | error e => exact ⟨e, rfl⟩
    | ok a =>
      obtain ⟨y, s, hy, -⟩ := parse_eq_ok.1 h
      exact absurd hkind (Yard.ne_comma_of_readAll hy c hc)
  · rintro ts c after hcall hc ⟨y, hy⟩
    obtain ⟨hts, -, -⟩ := List.isChain_append.1 (functionsCall_iff.1 hcall).1
    have hchain : ∀ {before p inner}, Unclosed ts before p inner →
        before.IsChain fun f p => f.kind = .function → p.kind = .leftParenthesis :=
      fun hunclosed => (List.isChain_append.1 (hunclosed.eq ▸ hts)).1
    have hparse := parse_of_comma hy hc
    refine ⟨?_, ?_, fun after' => by rw [hparse, hparse]⟩
    · intro before p inner hunclosed f hf hkind
      rw [hparse, Yard.commaError_of_call hy hunclosed (hchain hunclosed) hf hkind]
    · rintro (hclosed | ⟨before, p, inner, hunclosed, hlast⟩)
      · rw [hparse, Yard.commaError_of_closed hy hclosed]
      · rw [hparse, Yard.commaError_of_group hy hunclosed (hchain hunclosed) hlast]

/-- In `1+f((g(x)*2-y)^3,))h(` the comma is blamed on `f`, though `g` was called in between, in
`f(2*(x^y,` it stands in a plain group within the call, and in `f(x)+y,` in no group at all. -/
theorem commas_refused_after_groups :
    let call := tokenize "1+f((g(x)*2-y)^3"
    let group := tokenize "f(2*(x^y"
    let sum := tokenize "f(x)+y"
    let c : Token := ⟨.comma, 20⟩
    let p : Token := ⟨.leftParenthesis, 4⟩
    let q : Token := ⟨.leftParenthesis, 5⟩
    Unclosed call (call.take 3) p (call.drop 4) ∧
      parse (call ++ c :: tokenize "))h(") = .error (.multipleArguments "f") ∧
      Unclosed group (group.take 4) q (group.drop 5) ∧
      parse (group ++ [c]) = .error .misplacedComma ∧
      Balanced sum ∧ parse (sum ++ [c]) = .error .misplacedComma ∧
      ∃ e, parse (sum ++ [c]) = .error e := by
  intro call group sum c p q
  have hcall : Unclosed call (call.take 3) p (call.drop 4) := ⟨by decide, rfl, by decide⟩
  have hgroup : Unclosed group (group.take 4) q (group.drop 5) := ⟨by decide, rfl, by decide⟩
  have hsum : Balanced sum := by decide
  have hblamed := (commas_refused.2 call c (tokenize "))h(") (functionsCall_iff.2 (by decide)) rfl
    ⟨_, rfl⟩).1 _ _ _ hcall ⟨.ofName ['f'], 3⟩ rfl rfl
  have hplaced := (commas_refused.2 group c [] (functionsCall_iff.2 (by decide)) rfl
    ⟨_, rfl⟩).2.1 (.inr ⟨_, _, _, hgroup, by decide⟩)
  have houtside := (commas_refused.2 sum c [] (functionsCall_iff.2 (by decide)) rfl
    ⟨_, rfl⟩).2.1 (.inl fun _ _ _ => hsum.not_unclosed)
  exact ⟨hcall, hblamed, hgroup, hplaced, hsum, houtside,
    commas_refused.1 _ ⟨c, by simp, rfl⟩⟩

end InfixTree
