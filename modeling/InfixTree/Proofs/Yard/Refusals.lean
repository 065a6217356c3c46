import InfixTree.Proofs.Yard.Steps

/-! Why a list is rejected. An operator or a function that waits finds no operand, a closing
parenthesis finds no open one or too many operands in a call, a comma is read, something
other than operators waits at the end, or what is left then is not one tree. -/
namespace InfixTree

theorem bind_eq_error {α β ε : Type} {x : Except ε α} {f : α → Except ε β} {e : ε} :
    x >>= f = .error e ↔ x = .error e ∨ ∃ a, x = .ok a ∧ f a = .error e := by
  cases x <;> simp [bind, Except.bind]

namespace Operands

variable {s : Operands} {t : Token} {e : Failure}

theorem cause_of_fail {α : Type} {cause : ParseError} (h : (s.fail cause : Except Failure α) = .error e) :
    e.cause = cause := by
  cases h
  rfl

theorem cause_of_pop (h : s.pop t = .error e) : e.cause = .missingOperand t.value := by
  unfold pop at h
  split at h
  · split_ifs at h
    exact cause_of_fail h
  · exact cause_of_fail h

theorem cause_of_operate (h : s.operate t = .error e) : e.cause = .missingOperand t.value := by
  rcases bind_eq_error.1 h with h | ⟨⟨r, s'⟩, -, h⟩
  · exact cause_of_pop h
  · rcases bind_eq_error.1 h with h | ⟨⟨l, s''⟩, -, h⟩
    · exact cause_of_pop h
    · cases h

theorem cause_of_apply (h : s.apply t = .error e) : e.cause = .missingOperand t.value := by
  rcases bind_eq_error.1 h with h | ⟨⟨a, s'⟩, -, h⟩
  · exact cause_of_pop h
  · cases h

theorem cause_of_call {n : Nat} (h : s.call t n = .error e) :
    e.cause = .missingOperand t.value ∨ e.cause = .multipleArguments t.value := by
  match n with
  | 0 => exact .inl (cause_of_fail h)
  | 1 => exact .inl (cause_of_apply h)
  | n + 2 => exact .inr (cause_of_fail h)

end Operands

namespace Yard

variable {p : Operator → Bool} {ops ts : List Token} {s : Operands} {y : Yard} {t : Token}
  {e : Failure}

/-- Reductions fail where an operator finds no operands. -/
theorem cause_of_reduce (h : reduce p ops s = .error e) :
    ∃ w ∈ ops, e.cause = .missingOperand w.value := by
  induction ops generalizing s with
  | nil => cases h
  | cons t ts ih =>
    unfold reduce at h
    split_ifs at h
    rcases bind_eq_error.1 h with h | ⟨u, -, h⟩
    · exact ⟨t, List.mem_cons_self, Operands.cause_of_operate h⟩
    · obtain ⟨w, hw, hcause⟩ := ih h
      exact ⟨w, List.mem_cons_of_mem _ hw, hcause⟩

/-- The ways in which a token is refused. -/
inductive Refusal (y : Yard) (t : Token) : ParseError → Prop
  | missing {w : Token} : w ∈ y.operators → Refusal y t (.missingOperand w.value)
  | several {f : Token} : t.kind = .rightParenthesis → f ∈ y.operators → f.kind = .function →
    Refusal y t (.multipleArguments f.value)
  | unopened {ops : List Token} {s : Operands} : t.kind = .rightParenthesis →
    y.reduceAll = .ok ⟨ops, s⟩ → (∀ p ∈ ops.head?, p.kind ≠ .leftParenthesis) →
    Refusal y t .unmatchedParenthesis
  | comma : t.kind = .comma → Refusal y t (commaError y.operators)

theorem refusal_of_leaveGroup {q : Token} (ht : t.kind = .rightParenthesis)
    (hr : y.reduceAll = .ok ⟨q :: ops, s⟩) (h : leaveGroup ops s = .error e) :
    Refusal y t e.cause := by
  obtain ⟨taken, htaken, -⟩ := reduce_taken hr
  unfold leaveGroup at h
  split at h
  split at h
  · rename_i f rest
    have hwaits : f ∈ y.operators := by simp [htaken]
    split_ifs at h with hf
    · rcases bind_eq_error.1 h with h | ⟨u, -, h⟩
      · rcases Operands.cause_of_call h with hcause | hcause
        · exact hcause ▸ .missing hwaits
        · exact hcause ▸ .several ht hwaits hf
      · cases h
    · cases h
  · cases h

theorem refusal_of_error (h : y.step t = .error e) : Refusal y t e.cause := by
  unfold step at h
  split at h
  · cases h
  · cases h
  · cases h
  · cases h
  · rename_i ht
    rcases bind_eq_error.1 h with h | ⟨⟨ops, s⟩, hr, h⟩
    · obtain ⟨w, hw, hcause⟩ := cause_of_reduce h
      exact hcause ▸ .missing hw
    · cases ops with
      | nil => exact Operands.cause_of_fail h ▸ .unopened ht hr (by simp)
      | cons q ops =>
        by_cases hq : q.kind = .leftParenthesis
        · simp only [hq, if_true] at h
          exact refusal_of_leaveGroup ht hr h
        · simp only [hq, if_false] at h
          exact Operands.cause_of_fail h ▸ .unopened ht hr (by simpa using hq)
  · rcases bind_eq_error.1 h with h | ⟨z, -, h⟩
    · obtain ⟨w, hw, hcause⟩ := cause_of_reduce h
      exact hcause ▸ .missing hw
    · cases h
  · exact Operands.cause_of_fail h ▸ .comma ‹_›

/-- A comma in a call is blamed on a function that waits. -/
theorem commaError_cases (ops : List Token) : commaError ops = .misplacedComma ∨
    ∃ f ∈ ops, f.kind = .function ∧ commaError ops = .multipleArguments f.value := by
  unfold commaError
  split
  · rename_i p f rest hdrop
    split_ifs with hf
    · have hsuffix := List.dropWhile_suffix (l := ops) (fun t => decide (t.kind ≠ .leftParenthesis))
      rw [hdrop] at hsuffix
      exact .inr ⟨f, hsuffix.subset (by simp), hf, rfl⟩
    · exact .inl rfl
  · exact .inl rfl

/-- No token is refused for what is left at the end. -/
theorem Refusal.ne {e : ParseError} (h : Refusal y t e) :
    e ≠ .emptyExpression ∧ ∀ n, e ≠ .multipleRoots n := by
  cases h with
  | missing | several | unopened => simp
  | comma =>
    obtain hcomma | ⟨f, -, -, hcomma⟩ := commaError_cases y.operators <;> simp [hcomma]

/-- Reading fails at one token. -/
theorem readAll_eq_error (h : y.readAll ts = .error e) : ∃ before t after z,
    ts = before ++ t :: after ∧ y.readAll before = .ok z ∧ z.step t = .error e := by
  induction ts generalizing y with
  | nil => cases h
  | cons t ts ih =>
    rw [readAll_cons, bind_eq_error] at h
    rcases h with h | ⟨u, hu, h⟩
    · exact ⟨[], t, ts, y, rfl, rfl, h⟩
    · obtain ⟨before, w, after, z, rfl, hz, hw⟩ := ih h
      refine ⟨t :: before, w, after, z, rfl, ?_, hw⟩
      rw [readAll_cons, hu, ok_bind, hz]

end Yard

/-- The ways in which a list is rejected. -/
inductive Rejected (ts : List Token) : ParseError → Prop
  | reading {before after : List Token} {t : Token} {y : Yard} {e : ParseError} :
    ts = before ++ t :: after → Yard.readAll {} before = .ok y → y.Refusal t e → Rejected ts e
  | missing {y : Yard} {w : Token} : Yard.readAll {} ts = .ok y → w ∈ y.operators →
    Rejected ts (.missingOperand w.value)
  | unclosed {y : Yard} {p : Token} {ops : List Token} {s : Operands} :
    Yard.readAll {} ts = .ok y → y.reduceAll = .ok ⟨p :: ops, s⟩ →
    Rejected ts .unmatchedParenthesis
  | empty {y : Yard} {s : Operands} : Yard.readAll {} ts = .ok y → y.reduceAll = .ok ⟨[], s⟩ →
    s.trees = [] → Rejected ts .emptyExpression
  | roots {y : Yard} {s : Operands} : Yard.readAll {} ts = .ok y → y.reduceAll = .ok ⟨[], s⟩ →
    2 ≤ s.trees.length → Rejected ts (.multipleRoots s.trees.length)

theorem rejected_of_arrange {ts : List Token} {e : Failure} (h : arrange ts = .error e) :
    Rejected ts e.cause := by
  rcases bind_eq_error.1 h with h | ⟨y, hy, h⟩
  · obtain ⟨before, t, after, z, hts, hz, ht⟩ := Yard.readAll_eq_error h
    exact .reading hts hz (Yard.refusal_of_error ht)
  · rcases bind_eq_error.1 h with h | ⟨⟨ops, s⟩, hr, h⟩
    · obtain ⟨w, hw, hcause⟩ := Yard.cause_of_reduce h
      exact hcause ▸ .missing hy hw
    · cases ops with
      | nil => cases h
      | cons p ops => exact Operands.cause_of_fail h ▸ .unclosed hy hr

theorem rejected_of_parse {ts : List Token} {e : ParseError} (h : parse ts = .error e) :
    Rejected ts e := by
  unfold parse at h
  split at h
  · rename_i s hs
    obtain ⟨y, hy, hr⟩ := arrange_eq_ok.1 hs
    unfold Operands.root at h
    split at h
    · rename_i htrees
      cases h
      exact .empty hy hr htrees
    · cases h
    · rename_i us hnil hone
      cases h
      refine .roots hy hr ?_
      match htrees : s.trees with
      | [] => exact absurd htrees hnil
      | [t] => exact absurd htrees (hone t)
      | _ :: _ :: _ => simp
  · rename_i f hf
    cases h
    exact rejected_of_arrange hf

/-- What is left counts only once nothing waits any more. -/
theorem Rejected.exists_reduceAll {ts : List Token} {e : ParseError} (h : Rejected ts e)
    (he : e = .emptyExpression ∨ ∃ n, e = .multipleRoots n) :
    ∃ y s, Yard.readAll {} ts = .ok y ∧ y.reduceAll = .ok ⟨[], s⟩ := by
  cases h with
  | empty hy hr => exact ⟨_, _, hy, hr⟩
  | roots hy hr => exact ⟨_, _, hy, hr⟩
  | missing | unclosed => simp at he
  | reading _ _ hrefusal =>
    obtain ⟨hempty, hroots⟩ := hrefusal.ne
    obtain he | ⟨n, he⟩ := he
    · exact absurd he hempty
    · exact absurd he (hroots n)

end InfixTree
