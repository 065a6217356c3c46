import InfixTree.Proofs.Token.Numbering

/-! Tokenizing up to the end of the ids. A text asks for one id for each of its tokens, wherever in
it they are found, so it can be read from a first id on just if that and the number of its tokens
come to no more than the largest number. Then its tokens are the ones it always has, with their
ids moved, and the allocator goes on after them; otherwise the allocator has come to its end. -/
namespace InfixTree

variable {a : Allocator} {text : String}

theorem tokenizeFrom_eq (a : Allocator) (text : String) : tokenizeFrom a text =
    (if (tokenize text).length ≤ a.left then .ok (Token.numberFrom a.next (lexemes text))
      else .error {}, (a.draw (tokenize text).length).2) := by
  rw [length_tokenize]
  exact a.number_eq (lexemes text)

theorem range'_moved (first n : Nat) : (List.range' first n).map (fun id : Nat => (id : Int)) =
    (List.range' 1 n).map fun id : Nat => (id : Int) + first - 1 := by
  refine List.ext_getElem (by simp) fun i _ _ => ?_
  simp only [List.getElem_map, List.getElem_range', Nat.one_mul]
  push_cast
  omega

theorem exists_tokenizeFrom (a : Allocator) (text : String) (h : (tokenize text).length ≤ a.left) :
    ∃ ts b, tokenizeFrom a text = (.ok ts, b) ∧
      ts.map (·.toLexeme) = (tokenize text).map (·.toLexeme) ∧
      ts.map (fun t => (t.id : Int)) = (tokenize text).map (fun t => (t.id : Int) + a.next - 1) ∧
      b.next = a.next + (tokenize text).length := by
  have hmoved := range'_moved a.next (tokenize text).length
  rw [← map_id_tokenize, length_tokenize, ← map_id_numberFrom, List.map_map, List.map_map] at hmoved
  refine ⟨Token.numberFrom a.next (lexemes text), (a.draw (tokenize text).length).2, ?_, ?_, hmoved,
    ?_⟩
  · rw [tokenizeFrom_eq, if_pos h]
  · rw [map_toLexeme_numberFrom, map_toLexeme_tokenize]
  · rw [(a.draw_eq _).2, Nat.min_eq_left h]

theorem tokenizeFrom_of_lt (h : a.left < (tokenize text).length) :
    tokenizeFrom a text = (.error {}, .startingAt 18446744073709551615) := by
  generalize hb : (a.draw (tokenize text).length).2 = b
  have hend : b = .startingAt 18446744073709551615 := by
    have hspent : b.left = 0 := hb ▸ Allocator.left_draw_of_le (Nat.le_of_lt h)
    have hnext : b.next + b.left = 18446744073709551615 := b.next_add_left
    refine Allocator.eq_of_next (Eq.trans ?_ hnext)
    rw [hspent, Nat.add_zero]
  rw [tokenizeFrom_eq, if_neg (Nat.not_le_of_lt h), hb, hend]

theorem next_of_tokenizeFrom {ts : List Token} {b : Allocator}
    (h : tokenizeFrom a text = (.ok ts, b)) :
    (tokenize text).length ≤ a.left ∧ b.next = a.next + (tokenize text).length := by
  by_cases hle : (tokenize text).length ≤ a.left
  · obtain ⟨us, d, hus, -, -, hd⟩ := exists_tokenizeFrom a text hle
    rw [h] at hus
    cases hus
    exact ⟨hle, hd⟩
  · rw [tokenizeFrom_of_lt (Nat.lt_of_not_le hle)] at h
    cases h

/-- Reading a text from a first id on: it succeeds just if the id and the number of tokens come to
at most the largest 64-bit number, with the tokens of the text under ids that are moved by the
difference of the first ids, and leaves the allocator at their sum; and it fails for want of ids
just if they come to more, with the allocator at the largest number. -/
theorem tokenizeFrom_startingAt (text : String) (first : Nat) (h : first < UInt64.size) :
    let size := (tokenize text).length
    ((∃ ts, (tokenizeFrom (.startingAt first h) text).1 = .ok ts) ↔
      first + size ≤ 18446744073709551615) ∧
    (first + size ≤ 18446744073709551615 → ∃ ts b,
      tokenizeFrom (.startingAt first h) text = (.ok ts, b) ∧
        ts.map (·.toLexeme) = (tokenize text).map (·.toLexeme) ∧
        ts.map (fun t => (t.id : Int)) = (tokenize text).map (fun t => (t.id : Int) + first - 1) ∧
        b.next = first + size) ∧
    (18446744073709551615 < first + size → ∃ e,
      tokenizeFrom (.startingAt first h) text = (.error e, .startingAt 18446744073709551615) ∧
        e.message = "attempt to add with overflow") := by
  intro size
  let a := Allocator.startingAt first h
  have hfirst : first < 18446744073709551616 := h
  have hleft : first + a.left = 18446744073709551615 := a.next_add_left
  refine ⟨⟨?_, fun hle => ?_⟩, fun hle => ?_, fun hlt => ?_⟩
  · rintro ⟨ts, hts : (tokenizeFrom a text).1 = .ok ts⟩
    rcases hread : tokenizeFrom a text with ⟨result, b⟩
    rw [hread] at hts
    cases hts
    have hle := (next_of_tokenizeFrom hread).1
    omega
  · obtain ⟨ts, b, hts, -⟩ := exists_tokenizeFrom a text (by omega)
    exact ⟨ts, congrArg Prod.fst hts⟩
  · exact exists_tokenizeFrom a text (by omega)
  · exact ⟨{}, tokenizeFrom_of_lt (a := a) (by omega), rfl⟩

/-- The three tokens of `x+y` can be had from the last id but three, and not from the next one;
counted from zero they come one earlier than in the text alone. -/
theorem tokenizeFrom_startingAt_last :
    (∃ ts b, tokenizeFrom (.startingAt 18446744073709551612) "x+y" = (.ok ts, b) ∧
      ts.map (fun t => (t.id : Int)) =
        [18446744073709551612, 18446744073709551613, 18446744073709551614] ∧
      b.next = 18446744073709551615) ∧
    (∃ e, tokenizeFrom (.startingAt 18446744073709551613) "x+y" =
      (.error e, .startingAt 18446744073709551615) ∧ e.message = "attempt to add with overflow") ∧
    ∃ ts b, tokenizeFrom (.startingAt 0) "x+y" = (.ok ts, b) ∧
      ts.map (fun t => (t.id : Int)) = [0, 1, 2] ∧ b.next = 3 := by
  have hsize : (tokenize "x+y").length = 3 := rfl
  refine ⟨?_, ?_, ?_⟩
  · obtain ⟨-, hread, -⟩ := tokenizeFrom_startingAt "x+y" 18446744073709551612 (by decide)
    obtain ⟨ts, b, hts, -, hids, hb⟩ := hread (by decide)
    exact ⟨ts, b, hts, hids.trans (by decide), by rw [hb, hsize]⟩
  · exact (tokenizeFrom_startingAt "x+y" 18446744073709551613 (by decide)).2.2 (by decide)
  · obtain ⟨-, hread, -⟩ := tokenizeFrom_startingAt "x+y" 0 (by decide)
    obtain ⟨ts, b, hts, -, hids, hb⟩ := hread (by decide)
    exact ⟨ts, b, hts, hids, by rw [hb, hsize]⟩

end InfixTree
