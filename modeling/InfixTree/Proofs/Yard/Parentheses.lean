import InfixTree.Proofs.Balance
import InfixTree.Proofs.Scan.Adjacency
import InfixTree.Proofs.Yard.Invariants
import InfixTree.Proofs.Yard.Refusals

/-! Errors about parentheses are exact. The open parentheses that wait on the stack are those
of the groups that are open, so a list that is read to its end with nothing left waiting is
balanced. An unmatched parenthesis is reported where the stack has none to close, or where
one is left at the end; a function is found there instead only if it stands before something
other than its group. -/
namespace InfixTree

open Token

/-- The kinds of token that wait on the stack. -/
def Kind.waits : Kind → Bool
  | .operator _ | .function | .leftParenthesis => true
  | .literal | .variable | .rightParenthesis | .comma => false

namespace Yard

variable {p : Operator → Bool} {ops ops' ts : List Token} {s s' : Operands} {y : Yard}
  {t q : Token}

/-- What waits after a list: an open parenthesis for each group that is open. -/
structure Tallies (ts ops : List Token) : Prop where
  closesOpened : ClosesOpened ts
  depth_eq : depth ts = ops.countP (·.kind = .leftParenthesis)
  waits : ∀ w ∈ ops, w.kind.waits

namespace Tallies

theorem reduce (h : Tallies ts ops) (hr : Yard.reduce p ops s = .ok ⟨ops', s'⟩) :
    Tallies ts ops' := by
  refine ⟨h.closesOpened, by rw [countP_reduce hr, h.depth_eq], fun w hw => h.waits w ?_⟩
  obtain ⟨taken, rfl, -⟩ := reduce_taken hr
  exact List.mem_append_right _ hw

/-- The stack is still in step after a token if its open parentheses change as the depth does. -/
theorem concat (h : Tallies ts ops) (hwaits : ∀ w ∈ ops', w.kind.waits)
    (hdepth : depth [t] + ops.countP (·.kind = .leftParenthesis) =
      ops'.countP (·.kind = .leftParenthesis)) : Tallies (ts ++ [t]) ops' := by
  have hall : depth (ts ++ [t]) = ops'.countP (·.kind = .leftParenthesis) := by
    rw [depth_append, h.depth_eq, Int.add_comm, hdepth]
  refine ⟨closesOpened_concat.2 ⟨h.closesOpened, ?_⟩, hall, hwaits⟩
  rw [hall]
  exact Int.natCast_nonneg _

theorem cons (h : Tallies ts ops) (ht : t.kind.waits) : Tallies (ts ++ [t]) (t :: ops) := by
  have hnot : t.kind ≠ .rightParenthesis := fun hk => by rw [hk] at ht; cases ht
  refine h.concat (List.forall_mem_cons.2 ⟨ht, h.waits⟩) ?_
  by_cases hl : t.kind = .leftParenthesis
  · rw [depth_left hl, List.countP_cons_of_pos (by simpa using hl)]
    omega
  · rw [depth_other hl hnot, List.countP_cons_of_neg (by simpa using hl), Int.zero_add]

theorem operand (h : Tallies ts ops) (ht : t.kind.isOperand) : Tallies (ts ++ [t]) ops := by
  refine h.concat h.waits ?_
  rw [depth_other, Int.zero_add] <;> (intro hk; rw [hk] at ht; cases ht)

theorem close (h : Tallies ts (q :: ops)) (hq : q.kind = .leftParenthesis)
    (ht : t.kind = .rightParenthesis) : Tallies (ts ++ [t]) ops := by
  refine h.concat (List.forall_mem_cons.1 h.waits).2 ?_
  rw [depth_right ht, List.countP_cons_of_pos (by simpa using hq)]
  omega

theorem tail (h : Tallies ts (q :: ops)) (hq : q.kind ≠ .leftParenthesis) : Tallies ts ops := by
  refine ⟨h.closesOpened, ?_, (List.forall_mem_cons.1 h.waits).2⟩
  rw [h.depth_eq, List.countP_cons_of_neg (by simpa using hq)]

theorem balanced (h : Tallies ts []) : Balanced ts := ⟨h.closesOpened, h.depth_eq⟩

end Tallies

theorem tallies_readAll (h : readAll {} ts = .ok y) : Tallies ts y.operators := by
  refine readAll_induction (P := fun ts y => Tallies ts y.operators)
    ⟨closesOpened_nil, rfl, by simp⟩ ?_ h
  intro ts t y y' hy hstep
  cases hstep with
  | operand ht => exact hy.operand ht
  | function ht => exact hy.cons (by rw [ht]; rfl)
  | openGroup ht => exact hy.cons (by rw [ht]; rfl)
  | operator ht hr => exact (hy.reduce hr).cons (by rw [ht]; rfl)
  | closeGroup ht hr hq => exact (hy.reduce hr).close hq ht
  | closeCall ht hr hq hf => exact ((hy.reduce hr).close hq ht).tail (by simp [hf])

theorem balanced_of_reduceAll (h : readAll {} ts = .ok y) (hr : y.reduceAll = .ok ⟨[], s⟩) :
    Balanced ts := ((tallies_readAll h).reduce hr).balanced

/-- When all operators have gone there is an open parenthesis on top, or a function that has
just been read. -/
theorem top_of_reduceAll (h : readAll {} ts = .ok y)
    (hts : ts.IsChain fun f p => f.kind = .function → p.kind = .leftParenthesis)
    (hr : y.reduceAll = .ok ⟨q :: ops, s⟩) :
    q.kind = .leftParenthesis ∨ ∃ f ∈ ts.getLast?, f.kind = .function := by
  have hwaits := ((tallies_readAll h).reduce hr).waits q List.mem_cons_self
  match hq : q.kind with
  | .leftParenthesis => exact .inl rfl
  | .function => exact .inr (((functionsBelow h hts).reduce hr).top q rfl hq)
  | .operator o => cases stops_of_reduce hr q rfl o hq
  | .literal | .variable | .rightParenthesis | .comma =>
    rw [hq] at hwaits
    cases hwaits

end Yard

theorem not_balanced_of_unmatched {ts : List Token} (hts : FunctionsCall ts)
    (h : parse ts = .error .unmatchedParenthesis) : ¬ Balanced ts := by
  intro hbalanced
  obtain ⟨hchain, hend⟩ := functionsCall_iff.1 hts
  generalize he : ParseError.unmatchedParenthesis = e at h
  cases rejected_of_parse h with
  | @reading before after t y e hlist hy hrefusal =>
    cases hrefusal with
    | @unopened ops s ht hr hops =>
      rw [hlist] at hchain
      obtain ⟨hbefore, -, hlink⟩ := List.isChain_append.1 hchain
      cases ops with
      | nil =>
        -- all that was opened is closed already
        have hdepth := hbalanced.closesOpened (before ++ [t]) ⟨after, by simp [hlist]⟩
        rw [depth_append, (Yard.balanced_of_reduceAll hy hr).depth_eq, depth_right ht] at hdepth
        exact absurd hdepth (by decide)
      | cons q ops =>
        obtain hq | ⟨f, hf, hkind⟩ := Yard.top_of_reduceAll hy hbefore hr
        · exact hops q rfl hq
        · have hcall := hlink f hf t rfl hkind
          rw [ht] at hcall
          cases hcall
    | missing | several => cases he
    | comma =>
      obtain hcomma | ⟨f, -, -, hcomma⟩ := Yard.commaError_cases y.operators <;> simp [hcomma] at he
  | @unclosed y q ops s hy hr =>
    obtain hq | ⟨f, hf, hkind⟩ := Yard.top_of_reduceAll hy hchain hr
    · have hdepth := ((Yard.tallies_readAll hy).reduce hr).depth_eq
      rw [hbalanced.depth_eq, List.countP_cons_of_pos (by simpa using hq)] at hdepth
      omega
    · exact hend f hf hkind
  | missing | empty | roots => cases he

/-- A result that needs all groups closed comes of balanced lists only, and where functions
stand before their groups, as they do in every text, an unmatched parenthesis is reported of
lists only that are not balanced. -/
theorem parse_parentheses :
    (∀ ts, (∃ t, parse ts = .ok t) ∨ (∃ n, parse ts = .error (.multipleRoots n)) ∨
      parse ts = .error .emptyExpression → Balanced ts) ∧
    (∀ ts, FunctionsCall ts → parse ts = .error .unmatchedParenthesis → ¬ Balanced ts) ∧
    ∀ text, parse (tokenize text) = .error .unmatchedParenthesis →
      ¬ Balanced (tokenize text) := by
  refine ⟨fun ts h => ?_, fun ts => not_balanced_of_unmatched, fun text =>
    not_balanced_of_unmatched (functionsCall_tokenize text)⟩
  have hended : ∃ y s, Yard.readAll {} ts = .ok y ∧ y.reduceAll = .ok ⟨[], s⟩ := by
    obtain ⟨t, h⟩ | ⟨n, h⟩ | h := h
    · obtain ⟨y, s, hy, hr, -⟩ := parse_eq_ok.1 h
      exact ⟨y, s, hy, hr⟩
    · exact (rejected_of_parse h).exists_reduceAll (.inr ⟨n, rfl⟩)
    · exact (rejected_of_parse h).exists_reduceAll (.inl rfl)
  obtain ⟨y, s, hy, hr⟩ := hended
  exact Yard.balanced_of_reduceAll hy hr

/-- The two parts of `(2)3` are balanced, the call `f((x)` is not, though `f` finds a group to
be called with, and nor is the text `x)+(y`, which opens as much as it closes. -/
theorem parse_parentheses_call :
    let f : Token := ⟨.ofName ['f'], 1⟩
    let p : Token := ⟨.leftParenthesis, 2⟩
    let x : Token := ⟨.ofLetter 'x', 3⟩
    let q : Token := ⟨.rightParenthesis, 4⟩
    parse (tokenize "(2)3") = .error (.multipleRoots 2) ∧ Balanced (tokenize "(2)3") ∧
      FunctionsCall [f, p, p, x, q] ∧ parse [f, p, p, x, q] = .error .unmatchedParenthesis ∧
      ¬ Balanced [f, p, p, x, q] ∧ parse (tokenize "x)+(y") = .error .unmatchedParenthesis ∧
      ¬ Balanced (tokenize "x)+(y") := by
  intro f p x q
  have hparts : parse (tokenize "(2)3") = .error (.multipleRoots 2) := rfl
  have hcall : FunctionsCall [f, p, p, x, q] := functionsCall_iff.2 (by decide)
  have hopen : parse [f, p, p, x, q] = .error .unmatchedParenthesis := rfl
  have hclosed : parse (tokenize "x)+(y") = .error .unmatchedParenthesis := rfl
  exact ⟨hparts, parse_parentheses.1 _ (.inr (.inl ⟨2, hparts⟩)), hcall, hopen,
    parse_parentheses.2.1 _ hcall hopen, hclosed, parse_parentheses.2.2 _ hclosed⟩

end InfixTree
