import InfixTree.Proofs.Regeneration
import InfixTree.Proofs.Yard.Conservation

/-! Trees have the shape of expressions. The type of trees lets any token stand at any node, but
whatever list is parsed, the node that wraps a token has the children that its kind asks for:
operators wait until there are two operands for them and functions until there is one, and what
waits is never made a leaf. In the tree of a text the values fit their kinds as well, and no id
stands at two nodes. -/
namespace InfixTree

namespace Tree

/-- A node has the children that the kind of its token asks for, and the kind is that of a node. -/
def HasArity (n : Tree) : Prop :=
  match n.token.kind with
  | .literal | .variable => n.child? .left = none ∧ n.child? .right = none
  | .function => (∃ a, n.child? .left = some a) ∧ n.child? .right = none
  | .operator _ => (∃ l, n.child? .left = some l) ∧ ∃ r, n.child? .right = some r
  | .leftParenthesis | .rightParenthesis | .comma => False

variable {P : Token → Prop} {t : Token} {a l r n : Tree}

theorem hasArity_leaf : (leaf t).HasArity ↔ t.kind.isOperand := by
  unfold HasArity token
  cases t.kind <;> simp [child?, Kind.isOperand]

theorem hasArity_application : (application t a).HasArity ↔ t.kind = .function := by
  unfold HasArity token
  cases t.kind <;> simp [child?]

theorem hasArity_operation : (operation t l r).HasArity ↔ ∃ o, t.kind = .operator o := by
  unfold HasArity token
  cases t.kind <;> simp [child?]

/-- A tree has its shape just if every node has its arity. -/
theorem shaped_iff : n.Shaped P ↔ ∀ m ∈ n.preorder, m.HasArity ∧ P m.token := by
  induction n with
  | leaf t => simp [Shaped, preorder, hasArity_leaf, token]
  | application f a ih =>
    rw [Shaped, preorder, List.forall_mem_cons, hasArity_application, ih, and_assoc]
    rfl
  | operation t l r ihl ihr =>
    rw [Shaped, preorder, List.forall_mem_cons, hasArity_operation, List.forall_mem_append, ihl,
      ihr, and_assoc]
    rfl

end Tree

/-- Every list that is parsed gives a tree in which each node has its arity, and in the tree of
a text the values fit their kinds and the ids are distinct. -/
theorem well_shaped_of_parse : (∀ ts t, parse ts = .ok t → ∀ n ∈ t.preorder, n.HasArity) ∧
    ∀ text t, parseText text = .ok t →
      (∀ n ∈ t.preorder, n.HasArity ∧ n.token.toLexeme.Fits) ∧ (t.preorder.map Tree.id).Nodup := by
  constructor
  · intro ts t h n hn
    have hshaped : t.Shaped fun _ => True := shaped_of_parse h fun _ _ => trivial
    exact (Tree.shaped_iff.1 hshaped n hn).1
  · intro text t h
    exact ⟨Tree.shaped_iff.1 (valid_of_parseText h),
      nodup_ids_of_parse (nodup_ids_tokenize text) (parseText_eq_ok.1 h)⟩

/-- In `2 f(x) -` the operator comes last and still has two children; the list has one id for all
of its tokens, but a text gives each its own. -/
theorem well_shaped_of_parse_postfix :
    let two : Token := ⟨.ofDigits ['2'], 0⟩
    let f : Token := ⟨.ofName ['f'], 0⟩
    let p : Token := ⟨.leftParenthesis, 0⟩
    let x : Token := ⟨.ofLetter 'x', 0⟩
    let q : Token := ⟨.rightParenthesis, 0⟩
    let minus : Token := ⟨.ofOperator .subtract, 0⟩
    let tree := Tree.operation minus (.leaf two) (.application f (.leaf x))
    parse [two, f, p, x, q, minus] = .ok tree ∧ (∀ n ∈ tree.preorder, n.HasArity) ∧
      ∃ t, parseText "(2)f(x)-" = .ok t ∧
        (∀ n ∈ t.preorder, n.HasArity ∧ n.token.toLexeme.Fits) ∧
        (t.preorder.map Tree.id).Nodup := by
  intro two f p x q minus tree
  have hparse : parse [two, f, p, x, q, minus] = .ok tree := rfl
  obtain ⟨t, ht⟩ : ∃ t, parseText "(2)f(x)-" = .ok t := ⟨_, rfl⟩
  exact ⟨hparse, well_shaped_of_parse.1 _ _ hparse, t, ht, well_shaped_of_parse.2 _ _ ht⟩

end InfixTree
