import InfixTree.Proofs.Yard.Conservation
import InfixTree.Proofs.Yard.Parentheses

/-! Counting operands and operators tells what a list can be parsed as. An operation makes one
tree of two, a call makes one of one, and parentheses make none, so at all times the trees and
the operators read so far are together as many as the operands read so far and the operators
that wait. Nothing but parentheses leaves no tree at all, for a tree that has been built never
goes again. -/
namespace InfixTree

open Token

def Kind.isOperator : Kind → Bool
  | .operator _ => true
  | _ => false

theorem Kind.isOperator_eq_false_of_isOperand {k : Kind} (h : k.isOperand) :
    k.isOperator = false := by
  cases k <;> first | rfl | cases h

namespace Yard

variable {p : Operator → Bool} {ops ops' ts : List Token} {s s' : Operands} {y y' : Yard}
  {t f q : Token}

/-- What has been read against what is on the stacks. -/
def Counts (ts ops : List Token) (s : Operands) : Prop :=
  s.trees.length + ts.countP (·.kind.isOperator) =
    ts.countP (·.kind.isOperand) + ops.countP (·.kind.isOperator)

namespace Counts

/-- Every operator that goes takes one tree with it. -/
theorem reduce (h : Counts ts ops s) (hr : Yard.reduce p ops s = .ok ⟨ops', s'⟩) :
    Counts ts ops' s' := by
  obtain ⟨taken, rfl, htaken, -, hlength, -⟩ := reduce_taken hr
  have hall : taken.countP (·.kind.isOperator) = taken.length := by
    refine List.countP_eq_length.2 fun t ht => ?_
    obtain ⟨o, ho⟩ := htaken t ht
    rw [ho]
    rfl
  unfold Counts at h ⊢
  rw [List.countP_append, hall] at h
  omega

/-- A parenthesis or a function, which is neither operand nor operator, does not count. -/
theorem tail (h : Counts ts (q :: ops) s) (hq : q.kind.isOperator = false) : Counts ts ops s := by
  unfold Counts at h ⊢
  rwa [List.countP_cons_of_neg (by simp [hq])] at h

theorem cons (h : Counts ts ops s) (hq : q.kind.isOperator = false) : Counts ts (q :: ops) s := by
  unfold Counts at h ⊢
  rwa [List.countP_cons_of_neg (by simp [hq])]

theorem concat (h : Counts ts ops s) (ht : t.kind.isOperator = false)
    (ht' : t.kind.isOperand = false) : Counts (ts ++ [t]) ops s := by
  unfold Counts at h ⊢
  simpa [ht, ht'] using h

/-- A call leaves as many trees as there were. -/
theorem apply (h : Counts ts ops s) (hs : s.apply f = .ok s') : Counts ts ops s' := by
  obtain ⟨a, rest, htrees, -, rfl⟩ := Operands.apply_eq_ok.1 hs
  unfold Counts at h ⊢
  simpa [Operands.build, htrees] using h

theorem operand (h : Counts ts ops s) (ht : t.kind.isOperand) :
    Counts (ts ++ [t]) ops (s.push (.leaf t)) := by
  have hnot := Kind.isOperator_eq_false_of_isOperand ht
  unfold Counts at h ⊢
  simp only [Operands.push, List.length_cons, List.countP_append, List.countP_singleton, ht, hnot,
    if_true, Bool.false_eq_true, if_false]
  omega

theorem operator (h : Counts ts ops s) {o : Operator} (ht : t.kind = .operator o) :
    Counts (ts ++ [t]) (t :: ops) s := by
  have hoperator : t.kind.isOperator := by rw [ht]; rfl
  have hoperand : t.kind.isOperand = false := by rw [ht]; rfl
  unfold Counts at h ⊢
  simp only [List.countP_append, List.countP_cons, List.countP_nil, hoperator, hoperand, if_true,
    Bool.false_eq_true, if_false]
  omega

theorem step (h : Counts ts y.operators y.operands) (hstep : Step y t y') :
    Counts (ts ++ [t]) y'.operators y'.operands := by
  cases hstep with
  | operand ht => exact h.operand ht
  | function ht => exact (h.concat (by rw [ht]; rfl) (by rw [ht]; rfl)).cons (by rw [ht]; rfl)
  | openGroup ht => exact (h.concat (by rw [ht]; rfl) (by rw [ht]; rfl)).cons (by rw [ht]; rfl)
  | operator ht hr => exact (h.reduce hr).operator ht
  | @closeGroup q ops s ht hr hq =>
    have hclosed : Counts ts ops s.closeGroup.2 := (h.reduce hr).tail (by rw [hq]; rfl)
    exact hclosed.concat (by rw [ht]; rfl) (by rw [ht]; rfl)
  | @closeCall q f ops s s' ht hr hq hf _ happly =>
    have hclosed : Counts ts (f :: ops) s.closeGroup.2 := (h.reduce hr).tail (by rw [hq]; rfl)
    have hcalled := (hclosed.tail (by rw [hf]; rfl)).apply happly
    exact hcalled.concat (by rw [ht]; rfl) (by rw [ht]; rfl)

end Counts

theorem counts_readAll (h : readAll {} ts = .ok y) : Counts ts y.operators y.operands :=
  readAll_induction (P := fun ts y => Counts ts y.operators y.operands) rfl Counts.step h

/-- When nothing waits any more, each operator has joined two of the operands. -/
theorem length_trees_of_reduceAll (h : readAll {} ts = .ok y) (hr : y.reduceAll = .ok ⟨[], s⟩) :
    ts.countP (·.kind.isOperand) = ts.countP (·.kind.isOperator) + s.trees.length := by
  have hcounts := (counts_readAll h).reduce hr
  unfold Counts at hcounts
  rw [List.countP_nil] at hcounts
  omega

/-! ### Nothing but parentheses -/

/-- Parentheses alone are read without error as long as they close what they opened, and
nothing comes of them. -/
theorem readAll_of_parentheses (hts : ClosesOpened ts)
    (hkinds : ∀ t ∈ ts, t.kind = .leftParenthesis ∨ t.kind = .rightParenthesis) :
    ∃ y, readAll {} ts = .ok y ∧ y.operands.trees = [] ∧
      ∀ w ∈ y.operators, w.kind = .leftParenthesis := by
  induction ts using List.reverseRecOn with
  | nil => exact ⟨{}, rfl, rfl, by simp⟩
  | append_singleton ts t ih =>
    obtain ⟨hts, hdepth⟩ := closesOpened_concat.1 hts
    obtain ⟨hbefore, ht⟩ := List.forall_mem_append.1 hkinds
    obtain ⟨y, hy, htrees, hops⟩ := ih hts hbefore
    rw [readAll_concat, hy, ok_bind]
    obtain ht | ht := ht t (by simp)
    · refine ⟨⟨t :: y.operators, y.operands.openGroup⟩, by simp [step, ht], htrees, ?_⟩
      exact List.forall_mem_cons.2 ⟨ht, hops⟩
    · cases hstack : y.operators with
      | nil =>
        rw [depth_append, (tallies_readAll hy).depth_eq, hstack, depth_right ht] at hdepth
        exact absurd hdepth (by decide)
      | cons q ops =>
        obtain ⟨hq, hops⟩ := List.forall_mem_cons.1 (hstack ▸ hops)
        have hreduced : y.reduceAll = .ok ⟨q :: ops, y.operands⟩ := by
          rw [reduceAll, hstack]
          exact reduce_of_stops (by simp [Stops, hq])
        have hleft : leaveGroup ops y.operands = .ok ⟨ops, y.operands.closeGroup.2⟩ := by
          cases ops with
          | nil => rfl
          | cons f rest =>
            have hf : f.kind = .leftParenthesis := hops f List.mem_cons_self
            simp [leaveGroup, hf, pure, Except.pure]
        refine ⟨⟨ops, y.operands.closeGroup.2⟩, ?_, htrees, hops⟩
        rw [step, ht]
        exact closeGroup_eq_ok.2 ⟨q, ops, y.operands, hreduced, hq, hleft⟩

end Yard

/-- Where no tree is left, no token was read that a node can wrap. -/
theorem parentheses_of_empty {ts : List Token} {y : Yard} {s : Operands}
    (hy : Yard.readAll {} ts = .ok y) (hr : y.reduceAll = .ok ⟨[], s⟩) (hs : s.trees = []) :
    ∀ t ∈ ts, t.kind = .leftParenthesis ∨ t.kind = .rightParenthesis := by
  have hperm := tokens_perm_of_arrange (arrange_eq_ok.2 ⟨y, hy, hr⟩)
  rw [hs, List.flatMap_nil, List.nil_perm, List.filter_eq_nil_iff] at hperm
  intro t ht
  have hnode := hperm t ht
  have hcomma := Yard.ne_comma_of_readAll hy t ht
  cases hk : t.kind <;> simp_all [Kind.isNode]

theorem parse_eq_empty_iff {ts : List Token} : parse ts = .error .emptyExpression ↔
    (∀ t ∈ ts, t.kind = .leftParenthesis ∨ t.kind = .rightParenthesis) ∧ Balanced ts := by
  constructor
  · intro h
    cases rejected_of_parse h with
    | reading _ _ hrefusal => exact absurd rfl hrefusal.ne.1
    | empty hy hr hs =>
      exact ⟨parentheses_of_empty hy hr hs, Yard.balanced_of_reduceAll hy hr⟩
  · rintro ⟨hkinds, hts⟩
    obtain ⟨y, hy, htrees, hops⟩ := Yard.readAll_of_parentheses hts.closesOpened hkinds
    have hdepth := (Yard.tallies_readAll hy).depth_eq
    rw [hts.depth_eq, List.countP_eq_length.2 fun w hw => by simpa using hops w hw] at hdepth
    have hstack : y.operators = [] := List.length_eq_zero_iff.1 (by omega)
    have hreduced : y.reduceAll = .ok ⟨[], y.operands⟩ := by
      rw [Yard.reduceAll, hstack]
      rfl
    rw [parse_eq_root hy hreduced, Operands.root, htrees]

/-- A list that is parsed has one operand more than operators, a list that falls apart is told
into how many trees its operators join its operands, and the lists that are called empty are
those of balanced parentheses and nothing else. -/
theorem parse_operand_count (ts : List Token) :
    (∀ a, parse ts = .ok a →
      ts.countP (·.kind.isOperand) = ts.countP (·.kind.isOperator) + 1) ∧
    (∀ n, parse ts = .error (.multipleRoots n) →
      ts.countP (·.kind.isOperand) = ts.countP (·.kind.isOperator) + n ∧ 2 ≤ n) ∧
    (parse ts = .error .emptyExpression ↔
      (∀ t ∈ ts, t.kind = .leftParenthesis ∨ t.kind = .rightParenthesis) ∧ Balanced ts) := by
  refine ⟨fun a h => ?_, fun n h => ?_, parse_eq_empty_iff⟩
  · obtain ⟨y, s, hy, hr, hs⟩ := parse_eq_ok.1 h
    rw [Yard.length_trees_of_reduceAll hy hr, hs, List.length_singleton]
  · cases rejected_of_parse h with
    | reading _ _ hrefusal => exact absurd rfl (hrefusal.ne.2 n)
    | roots hy hr hlength => exact ⟨Yard.length_trees_of_reduceAll hy hr, hlength⟩

/-- The four operands of `(2)f(3+x)(y)` and its two operators, one of them left out in the text,
make two parts: `2`, and the product of `f(3+x)` and `y`. -/
theorem parse_operand_count_parts :
    let whole := tokenize "2*f(x)-3"
    let parts := tokenize "(2)f(3+x)(y)"
    let pairs := tokenize "(())#()"
    (∃ a, parse whole = .ok a) ∧
      whole.countP (·.kind.isOperand) = whole.countP (·.kind.isOperator) + 1 ∧
      parse parts = .error (.multipleRoots 2) ∧
      parts.countP (·.kind.isOperand) = parts.countP (·.kind.isOperator) + 2 ∧
      parse pairs = .error .emptyExpression := by
  intro whole parts pairs
  obtain ⟨a, ha⟩ : ∃ a, parse whole = .ok a := ⟨_, rfl⟩
  have hparts : parse parts = .error (.multipleRoots 2) := rfl
  exact ⟨⟨a, ha⟩, (parse_operand_count whole).1 a ha, hparts,
    ((parse_operand_count parts).2.1 2 hparts).1,
    (parse_operand_count pairs).2.2.2 ⟨by decide, by decide⟩⟩

end InfixTree
