import InfixTree.Proofs.Yard.Invariants

/-! No token is lost, doubled or reordered. A token that a node can wrap waits on the one
stack, for as long as its operands take, or it is in a tree on the other. Reductions and
calls move it from the first to the second, and a parenthesis that goes was in neither,
so the two together hold what has been read. -/
namespace InfixTree

/-- The kinds of token that a node can wrap. -/
def Kind.isNode : Kind → Bool
  | .literal | .variable | .operator _ | .function => true
  | .leftParenthesis | .rightParenthesis | .comma => false

theorem Kind.isNode_of_isOperand {k : Kind} (h : k.isOperand) : k.isNode := by
  cases k <;> first | rfl | cases h

namespace Tree

/-- The tokens of all nodes, each before those below it. -/
def tokens (t : Tree) : List Token := t.preorder.map token

variable {t : Token} {a l r : Tree}

@[simp] theorem tokens_leaf : (leaf t).tokens = [t] := rfl

@[simp] theorem tokens_application : (application t a).tokens = t :: a.tokens := rfl

@[simp] theorem tokens_operation : (operation t l r).tokens = t :: (l.tokens ++ r.tokens) := by
  simp [tokens, preorder, token]

end Tree

namespace Yard

variable {p : Operator → Bool} {ops ops' ts : List Token} {s s' : Operands} {y : Yard}
  {t f : Token} {o : Operator}

/-- The tokens that wait for their operands and those of the trees. -/
def held (ops : List Token) (s : Operands) : List Token :=
  ops.filter (·.kind.isNode) ++ s.trees.flatMap Tree.tokens

theorem held_cons (ht : t.kind.isNode) : held (t :: ops) s = t :: held ops s := by
  simp [held, ht]

theorem held_cons_parenthesis (ht : t.kind = .leftParenthesis) : held (t :: ops) s = held ops s := by
  simp [held, ht, Kind.isNode]

/-- An operator goes from the stack into the tree that is built with it. -/
theorem held_operate (ht : t.kind = .operator o) (h : s.operate t = .ok s') :
    (held ops s').Perm (held (t :: ops) s) := by
  obtain ⟨r, l, rest, hs, -, rfl⟩ := Operands.operate_eq_ok.1 h
  rw [held_cons (by rw [ht]; rfl), List.perm_iff_count]
  intro x
  simp only [held, Operands.build, hs, List.flatMap_cons, Tree.tokens_operation, List.count_append,
    List.count_cons]
  omega

/-- So does a function. -/
theorem held_apply (hf : f.kind = .function) (h : s.apply f = .ok s') :
    (held ops s').Perm (held (f :: ops) s) := by
  obtain ⟨a, rest, hs, -, rfl⟩ := Operands.apply_eq_ok.1 h
  rw [held_cons (by rw [hf]; rfl), List.perm_iff_count]
  intro x
  simp only [held, Operands.build, hs, List.flatMap_cons, Tree.tokens_application,
    List.count_append, List.count_cons]
  omega

theorem held_reduce (h : reduce p ops s = .ok ⟨ops', s'⟩) :
    (held ops' s').Perm (held ops s) :=
  (reduce_induction (P := fun us u => (held us u).Perm (held ops s))
    (fun ht _ hu hs => (held_operate ht hu).trans hs) h (.refl _)).1

/-- A token that is read is held from then on, if a node can wrap it. -/
theorem held_step {y' : Yard} (h : Step y t y') : (held y'.operators y'.operands).Perm
    (held y.operators y.operands ++ [t].filter (·.kind.isNode)) := by
  have hgain : t.kind.isNode → (t :: held y.operators y.operands).Perm
      (held y.operators y.operands ++ [t].filter (·.kind.isNode)) := fun ht => by
    rw [List.filter_singleton, ht]
    exact (List.perm_append_singleton t _).symm
  have hkeep : t.kind.isNode = false →
      held y.operators y.operands ++ [t].filter (·.kind.isNode) =
        held y.operators y.operands := fun ht => by
    rw [List.filter_singleton, ht]
    exact List.append_nil _
  cases h with
  | operand ht =>
    have hleaf : (held y.operators (y.operands.push (.leaf t))).Perm
        (t :: held y.operators y.operands) := List.perm_middle
    exact hleaf.trans (hgain (Kind.isNode_of_isOperand ht))
  | function ht =>
    have hnode : t.kind.isNode := by rw [ht]; rfl
    rw [held_cons hnode]
    exact hgain hnode
  | openGroup ht =>
    rw [hkeep (by rw [ht]; rfl), held_cons_parenthesis ht]
    exact .refl _
  | operator ht hr =>
    have hnode : t.kind.isNode := by rw [ht]; rfl
    rw [held_cons hnode]
    exact ((held_reduce hr).cons t).trans (hgain hnode)
  | @closeGroup q ops s ht hr hq =>
    have hreduced := held_reduce hr
    rw [held_cons_parenthesis hq] at hreduced
    rw [hkeep (by rw [ht]; rfl)]
    exact hreduced
  | @closeCall q f ops s s' ht hr hq hf _ happly =>
    have hreduced := held_reduce hr
    rw [held_cons_parenthesis hq] at hreduced
    rw [hkeep (by rw [ht]; rfl)]
    exact (held_apply hf happly).trans hreduced

/-- What the yard holds is what has been read, but for the order. -/
theorem held_readAll (h : readAll {} ts = .ok y) :
    (held y.operators y.operands).Perm (ts.filter (·.kind.isNode)) := by
  refine readAll_induction
    (P := fun ts y => (held y.operators y.operands).Perm (ts.filter (·.kind.isNode)))
    (.refl _) ?_ h
  intro ts t y y' hy hstep
  rw [List.filter_append]
  exact (held_step hstep).trans (hy.append_right _)

end Yard

/-- The tokens of the trees that are left are those of the list that a node can wrap. -/
theorem tokens_perm_of_arrange {ts : List Token} {s : Operands} (h : arrange ts = .ok s) :
    (s.trees.flatMap Tree.tokens).Perm (ts.filter (·.kind.isNode)) := by
  obtain ⟨y, hy, hr⟩ := arrange_eq_ok.1 h
  exact (Yard.held_reduce hr).trans (Yard.held_readAll hy)

theorem tokens_perm_of_parse {ts : List Token} {a : Tree} (h : parse ts = .ok a) :
    a.tokens.Perm (ts.filter (·.kind.isNode)) := by
  obtain ⟨y, s, hy, hr, hs⟩ := parse_eq_ok.1 h
  simpa [hs] using tokens_perm_of_arrange (arrange_eq_ok.2 ⟨y, hy, hr⟩)

theorem Tree.map_id_tokens (t : Tree) : t.tokens.map (·.id) = t.preorder.map Tree.id := by
  rw [tokens, List.map_map]
  rfl

/-- Distinct ids stay distinct in the tree. -/
theorem nodup_ids_of_parse {ts : List Token} {a : Tree} (hids : (ts.map (·.id)).Nodup)
    (h : parse ts = .ok a) : (a.preorder.map Tree.id).Nodup := by
  rw [← Tree.map_id_tokens, ((tokens_perm_of_parse h).map _).nodup_iff]
  exact hids.sublist (List.filter_sublist.map _)

/-- Parsing neither loses a token nor doubles or reorders one: the nodes wrap the operands,
operators and functions of the list, each as often as it stands there, they wrap no
parenthesis and no comma, and the leaves from left to right are the operands in order. -/
theorem parse_keeps_tokens {ts : List Token} {a : Tree} (h : parse ts = .ok a) :
    (a.preorder.map Tree.token).Perm (ts.filter (·.kind.isNode)) ∧
      (∀ n ∈ a.preorder, n.token.kind ≠ .leftParenthesis ∧ n.token.kind ≠ .rightParenthesis ∧
        n.token.kind ≠ .comma) ∧
      a.leaves = ts.filter (·.kind.isOperand) := by
  have hperm : (a.preorder.map Tree.token).Perm (ts.filter (·.kind.isNode)) :=
    tokens_perm_of_parse h
  refine ⟨hperm, fun n hn => ?_, leaves_of_parse h⟩
  have hmem : n.token ∈ ts.filter (·.kind.isNode) := hperm.subset (List.mem_map_of_mem hn)
  have hnode : n.token.kind.isNode := (List.mem_filter.1 hmem).2
  refine ⟨?_, ?_, ?_⟩ <;> (intro hk; rw [hk] at hnode; cases hnode)

/-- In `2 f(x) -` the operator comes last, and the call is its right operand. -/
theorem parse_keeps_tokens_postfix :
    let two : Token := ⟨.ofDigits ['2'], 1⟩
    let f : Token := ⟨.ofName ['f'], 2⟩
    let p : Token := ⟨.leftParenthesis, 3⟩
    let x : Token := ⟨.ofLetter 'x', 4⟩
    let q : Token := ⟨.rightParenthesis, 5⟩
    let minus : Token := ⟨.ofOperator .subtract, 6⟩
    let tree := Tree.operation minus (.leaf two) (.application f (.leaf x))
    parse [two, f, p, x, q, minus] = .ok tree ∧
      [minus, two, f, x].Perm [two, f, x, minus] ∧ tree.leaves = [two, x] := by
  intro two f p x q minus tree
  have hparse : parse [two, f, p, x, q, minus] = .ok tree := rfl
  have hkeeps := parse_keeps_tokens hparse
  exact ⟨hparse, hkeeps.1, hkeeps.2.2⟩

end InfixTree
