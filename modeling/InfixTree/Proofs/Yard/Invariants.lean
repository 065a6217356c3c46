import InfixTree.Proofs.Yard.Steps
import InfixTree.Proofs.Grammar

/-! What holds of the yard after any list. The leaves of its operands are the operands
that were read, in order; it has a mark for each open parenthesis that waits; every node
has as many operands as its kind asks for; where every function is followed by a
parenthesis, a function on top of the stack was read last; and no comma was read. -/
namespace InfixTree

namespace Tree

/-- The tokens of the leaves from left to right. -/
def leaves : Tree → List Token
  | leaf t => [t]
  | application _ a => a.leaves
  | operation _ l r => l.leaves ++ r.leaves

/-- Every node has the operands that its kind asks for, and its token has the property. -/
def Shaped (P : Token → Prop) : Tree → Prop
  | leaf t => t.kind.isOperand ∧ P t
  | application f a => f.kind = .function ∧ P f ∧ a.Shaped P
  | operation t l r => (∃ o, t.kind = .operator o) ∧ P t ∧ l.Shaped P ∧ r.Shaped P

end Tree

/-- The leaves of the operands from the bottom of the stack up. -/
def Operands.leaves (s : Operands) : List Token := s.trees.reverse.flatMap Tree.leaves

namespace Operands

variable {s s' : Operands} {t : Token}

theorem leaves_push (a : Tree) : (s.push a).leaves = s.leaves ++ a.leaves := by
  simp [leaves, push]

theorem leaves_operate (h : s.operate t = .ok s') : s'.leaves = s.leaves := by
  obtain ⟨r, l, rest, hs, -, rfl⟩ := operate_eq_ok.1 h
  simp [leaves, build, hs, Tree.leaves]

theorem leaves_apply (h : s.apply t = .ok s') : s'.leaves = s.leaves := by
  obtain ⟨a, rest, hs, -, rfl⟩ := apply_eq_ok.1 h
  simp [leaves, build, hs, Tree.leaves]

end Operands

namespace Yard

variable {p : Operator → Bool} {ops ops' ts : List Token} {s s' : Operands} {y : Yard} {t : Token}

theorem leaves_reduce (h : reduce p ops s = .ok ⟨ops', s'⟩) : s'.leaves = s.leaves :=
  (reduce_induction (P := fun _ u => u.leaves = s.leaves)
    (fun _ _ hu hs => (Operands.leaves_operate hu).trans hs) h rfl).1

/-- Leaves are never lost, doubled or reordered. -/
theorem leaves_readAll (h : readAll {} ts = .ok y) :
    y.operands.leaves = ts.filter (·.kind.isOperand) := by
  refine readAll_induction (P := fun ts y => y.operands.leaves = ts.filter (·.kind.isOperand))
    rfl ?_ h
  intro ts t y y' hy hstep
  rw [List.filter_append, ← hy]
  cases hstep with
  | operand ht => rw [Operands.leaves_push, List.filter_singleton, ht]; rfl
  | function ht => simp [ht, Kind.isOperand]
  | openGroup ht => simp [ht, Kind.isOperand, Operands.leaves, Operands.openGroup]
  | operator ht hr => simp [ht, Kind.isOperand, leaves_reduce hr]
  | closeGroup ht hr =>
    have := leaves_reduce hr
    simpa [ht, Kind.isOperand, Operands.leaves, Operands.closeGroup] using this
  | @closeCall q f ops s s' ht hr _ _ _ hf =>
    have hclose : s.closeGroup.2.leaves = s.leaves := rfl
    simp [ht, Kind.isOperand, Operands.leaves_apply hf, hclose, leaves_reduce hr]

/-- Reductions take no parentheses. -/
theorem countP_reduce (h : reduce p ops s = .ok ⟨ops', s'⟩) :
    ops'.countP (·.kind = .leftParenthesis) = ops.countP (·.kind = .leftParenthesis) := by
  obtain ⟨taken, rfl, htaken, -⟩ := reduce_taken h
  have hnone : taken.countP (·.kind = .leftParenthesis) = 0 := by
    refine List.countP_eq_zero.2 fun t ht => ?_
    obtain ⟨o, ho⟩ := htaken t ht
    simp [ho]
  rw [List.countP_append, hnone, Nat.zero_add]

/-- Nor do they take marks. -/
theorem length_marks_reduce (h : reduce p ops s = .ok ⟨ops', s'⟩)
    (hs : s.marks.length = ops.countP (·.kind = .leftParenthesis)) :
    s'.marks.length = ops'.countP (·.kind = .leftParenthesis) := by
  have hcount := countP_reduce h
  obtain ⟨-, -, -, hmarks, -⟩ := reduce_taken h
  rw [hmarks, hs, hcount]

/-- A group has a mark as long as its parenthesis waits. -/
theorem length_marks (h : readAll {} ts = .ok y) :
    y.operands.marks.length = y.operators.countP (·.kind = .leftParenthesis) := by
  refine readAll_induction (P := fun _ y =>
    y.operands.marks.length = y.operators.countP (·.kind = .leftParenthesis)) rfl ?_ h
  intro ts t y y' hy hstep
  cases hstep with
  | operand ht => exact hy
  | function ht => simp [ht, hy]
  | openGroup ht => simp [ht, hy, Operands.openGroup]
  | operator ht hr => simp [ht, length_marks_reduce hr hy]
  | closeGroup ht hr hq =>
    have hlength := length_marks_reduce hr hy
    rw [List.countP_cons_of_pos (by simpa using hq)] at hlength
    rw [Operands.closeGroup, List.length_tail, hlength, Nat.add_sub_cancel]
  | closeCall ht hr hq hf _ happly =>
    have hlength := length_marks_reduce hr hy
    rw [List.countP_cons_of_pos (by simpa using hq),
      List.countP_cons_of_neg (by simp [hf])] at hlength
    obtain ⟨a, rest, -, -, rfl⟩ := Operands.apply_eq_ok.1 happly
    rw [Operands.build, Operands.closeGroup, List.length_tail, hlength, Nat.add_sub_cancel]

/-- Functions wait right below the parentheses they call, or on top if they were read last. -/
structure FunctionsBelow (ts ops : List Token) : Prop where
  below : ops.IsChain fun p f => f.kind = .function → p.kind = .leftParenthesis
  top : ∀ f ∈ ops.head?, f.kind = .function → ∃ g ∈ ts.getLast?, g.kind = .function

namespace FunctionsBelow

/-- Between the operators that go and a function there is a parenthesis. -/
theorem reduce (h : FunctionsBelow ts ops) (hr : Yard.reduce p ops s = .ok ⟨ops', s'⟩) :
    FunctionsBelow ts ops' := by
  obtain ⟨taken, rfl, htaken, -⟩ := reduce_taken hr
  obtain ⟨-, hbelow, hlink⟩ := List.isChain_append.1 h.below
  refine ⟨hbelow, fun f hf hkind => ?_⟩
  obtain rfl | ⟨init, w, rfl⟩ := List.eq_nil_or_concat' taken
  · exact h.top f hf hkind
  · obtain ⟨o, ho⟩ := htaken w (by simp)
    have := hlink w (by simp) f hf hkind
    rw [ho] at this
    cases this

theorem cons (h : FunctionsBelow ts ops) (hstack : ∀ f ∈ ops.head?, f.kind = .function →
    t.kind = .leftParenthesis) : FunctionsBelow (ts ++ [t]) (t :: ops) where
  below := List.isChain_cons.2 ⟨hstack, h.below⟩
  top := fun f hf hkind => by
    cases hf
    exact ⟨t, by simp, hkind⟩

/-- Without a function on top it does not matter what was read last. -/
theorem of_head (h : FunctionsBelow ts ops) (hops : ∀ f ∈ ops.head?, f.kind ≠ .function)
    (us : List Token) : FunctionsBelow us ops where
  below := h.below
  top := fun f hf hkind => absurd hkind (hops f hf)

end FunctionsBelow

theorem functionsBelow (h : readAll {} ts = .ok y)
    (hts : ts.IsChain fun f p => f.kind = .function → p.kind = .leftParenthesis) :
    FunctionsBelow ts y.operators := by
  refine readAll_induction (P := fun ts y =>
    (ts.IsChain fun f p => f.kind = .function → p.kind = .leftParenthesis) →
      FunctionsBelow ts y.operators) (fun _ => ⟨.nil, by simp⟩) ?_ h hts
  intro ts t y y' hy hstep hchain
  obtain ⟨hts, -, hlink⟩ := List.isChain_append.1 hchain
  have hy := hy hts
  -- a function on top calls the token that is read now
  have hcall : ∀ {ops : List Token}, FunctionsBelow ts ops → ∀ f ∈ ops.head?,
      f.kind = .function → t.kind = .leftParenthesis := by
    intro ops hops f hf hkind
    obtain ⟨g, hg, hkind⟩ := hops.top f hf hkind
    exact hlink g hg t rfl hkind
  cases hstep with
  | operand ht =>
    refine hy.of_head (fun f hf hkind => ?_) _
    rw [hcall hy f hf hkind] at ht
    cases ht
  | function | openGroup => exact hy.cons (hcall hy)
  | operator ht hr => exact (hy.reduce hr).cons (hcall (hy.reduce hr))
  | closeGroup ht hr hq hops =>
    have hops' := (hy.reduce hr).below
    rw [List.isChain_cons] at hops'
    exact ⟨hops'.2, fun f hf hkind => absurd hkind (hops f hf)⟩
  | closeCall ht hr hq hf =>
    have hops' := (hy.reduce hr).below
    rw [List.isChain_cons_cons, List.isChain_cons] at hops'
    refine ⟨hops'.2.2, fun g hg hkind => ?_⟩
    rw [hops'.2.1 g hg hkind] at hf
    cases hf

/-- No step reads a comma. -/
theorem ne_comma_of_readAll (h : readAll {} ts = .ok y) : ∀ t ∈ ts, t.kind ≠ .comma := by
  refine readAll_induction (P := fun ts _ => ∀ t ∈ ts, t.kind ≠ .comma) (by simp) ?_ h
  intro ts t y y' hts hstep
  refine List.forall_mem_append.2 ⟨hts, List.forall_mem_singleton.2 fun hcomma => ?_⟩
  cases hstep <;> simp_all [Kind.isOperand]

/-- What waits has the property and what is built has its shape. -/
structure Shaped (P : Token → Prop) (ops : List Token) (s : Operands) : Prop where
  operators : ∀ t ∈ ops, P t
  trees : ∀ a ∈ s.trees, a.Shaped P

variable {P : Token → Prop}

theorem Shaped.reduce (h : Shaped P ops s) (hr : Yard.reduce p ops s = .ok ⟨ops', s'⟩) :
    Shaped P ops' s' := by
  refine (reduce_induction (P := Shaped P) ?_ hr h).1
  intro t o ts s s' ht _ hs h
  obtain ⟨r, l, rest, htrees, -, rfl⟩ := Operands.operate_eq_ok.1 hs
  have hall := h.trees
  rw [htrees, List.forall_mem_cons, List.forall_mem_cons] at hall
  obtain ⟨hP, hops⟩ := List.forall_mem_cons.1 h.operators
  exact ⟨hops, List.forall_mem_cons.2 ⟨⟨⟨o, ht⟩, hP, hall.2.1, hall.1⟩, hall.2.2⟩⟩

theorem shaped_readAll (h : readAll {} ts = .ok y) (hts : ∀ t ∈ ts, P t) :
    Shaped P y.operators y.operands := by
  refine readAll_induction (P := fun ts y => (∀ t ∈ ts, P t) → Shaped P y.operators y.operands)
    (fun _ => ⟨by simp, by simp⟩) ?_ h hts
  intro ts t y y' hy hstep hts
  obtain ⟨hts, ht⟩ := List.forall_mem_append.1 hts
  have hP : P t := ht t (by simp)
  have hy := hy hts
  cases hstep with
  | operand ht => exact ⟨hy.operators, List.forall_mem_cons.2 ⟨⟨ht, hP⟩, hy.trees⟩⟩
  | function ht => exact ⟨List.forall_mem_cons.2 ⟨hP, hy.operators⟩, hy.trees⟩
  | openGroup ht => exact ⟨List.forall_mem_cons.2 ⟨hP, hy.operators⟩, hy.trees⟩
  | operator ht hr =>
    have hreduced := hy.reduce hr
    exact ⟨List.forall_mem_cons.2 ⟨hP, hreduced.operators⟩, hreduced.trees⟩
  | closeGroup ht hr =>
    have hreduced := hy.reduce hr
    exact ⟨(List.forall_mem_cons.1 hreduced.operators).2, hreduced.trees⟩
  | @closeCall q f ops s s' ht hr hq hf _ happly =>
    have hreduced := hy.reduce hr
    obtain ⟨-, hPf, hops⟩ :=
      (List.forall_mem_cons.1 hreduced.operators).imp_right List.forall_mem_cons.1
    obtain ⟨a, rest, htrees, -, rfl⟩ := Operands.apply_eq_ok.1 happly
    have hall : ∀ b ∈ a :: rest, b.Shaped P := htrees ▸ hreduced.trees
    obtain ⟨ha, hrest⟩ := List.forall_mem_cons.1 hall
    exact ⟨hops, List.forall_mem_cons.2 ⟨⟨hf, hPf, ha⟩, hrest⟩⟩

end Yard

/-- The leaves of a tree that is parsed are the operands of the list, in order. -/
theorem leaves_of_parse {ts : List Token} {a : Tree} (h : parse ts = .ok a) :
    a.leaves = ts.filter (·.kind.isOperand) := by
  obtain ⟨y, s, hy, hr, hs⟩ := parse_eq_ok.1 h
  rw [← Yard.leaves_readAll hy, ← Yard.leaves_reduce hr]
  simp [Operands.leaves, hs]

/-- A tree that is parsed has the shape that its kinds ask for. -/
theorem shaped_of_parse {P : Token → Prop} {ts : List Token} {a : Tree} (h : parse ts = .ok a)
    (hts : ∀ t ∈ ts, P t) : a.Shaped P := by
  obtain ⟨y, s, hy, hr, hs⟩ := parse_eq_ok.1 h
  have := ((Yard.shaped_readAll hy hts).reduce hr).trees
  exact this a (by simp [hs])

end InfixTree
