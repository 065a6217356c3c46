import InfixTree.Proofs.Yard.Lockstep
import InfixTree.Proofs.Yard.Nesting

/-! A list in parentheses stands for an operand. Put in the place of a literal or a
variable it changes nothing of the parse but the leaf that was there, whatever stands
around it and also where the parse fails. The two runs part at that place and are in
lockstep after it, the one with the leaf and the other with the tree of the list. -/
namespace InfixTree

/-- The tree with another one in place of a leaf, leaves being counted from the left. -/
def Tree.replaceLeaf : Tree → Nat → Tree → Tree
  | leaf _, 0, u => u
  | leaf t, _ + 1, _ => leaf t
  | application f a, n, u => application f (a.replaceLeaf n u)
  | operation t l r, n, u =>
    if n < l.leaves.length then operation t (l.replaceLeaf n u) r
    else operation t l (r.replaceLeaf (n - l.leaves.length) u)

/-- The second forest has a tree in place of a leaf of the first, leaves being counted from
the bottom of the stack. -/
inductive Replaced (u : Tree) : Nat → List Tree → List Tree → Prop
  | top {a : Tree} {k : Nat} (as : List Tree) : k < a.leaves.length →
    Replaced u ((as.flatMap Tree.leaves).length + k) (a :: as) (a.replaceLeaf k u :: as)
  | push {n : Nat} {as bs : List Tree} (a : Tree) : Replaced u n as bs →
    Replaced u n (a :: as) (a :: bs)

namespace Replaced

variable {n : Nat} {u a a' l l' r r' : Tree} {as bs : List Tree} {t f : Token}

theorem length_eq (h : Replaced u n as bs) : as.length = bs.length := by
  induction h with
  | top => rfl
  | push _ _ ih => simp [ih]

theorem application (h : Replaced u n (a :: as) (a' :: bs)) :
    Replaced u n (.application f a :: as) (.application f a' :: bs) := by
  cases h with
  | top _ hk => exact .top (a := .application f a) as hk
  | push _ h => exact .push _ h

/-- The leaf is in the right operand, in the left one or below both. -/
theorem operation (h : Replaced u n (r :: l :: as) (r' :: l' :: bs)) :
    Replaced u n (.operation t l r :: as) (.operation t l' r' :: bs) := by
  cases h with
  | @top _ k _ hk =>
    have hright := top (u := u) (a := .operation t l r) (k := l.leaves.length + k) as
      (by simpa [Tree.leaves] using hk)
    have hindex : ((l :: as).flatMap Tree.leaves).length + k =
        (as.flatMap Tree.leaves).length + (l.leaves.length + k) := by
      rw [List.flatMap_cons, List.length_append]
      omega
    have hnot : ¬ l.leaves.length + k < l.leaves.length := by omega
    rw [hindex]
    simpa [Tree.replaceLeaf, hnot] using hright
  | push _ h =>
    cases h with
    | @top _ k _ hk =>
      have hleft := top (u := u) (a := .operation t l r) (k := k) as
        (by simp only [Tree.leaves, List.length_append]; omega)
      simpa [Tree.replaceLeaf, hk] using hleft
    | push _ h => exact .push _ h

theorem singleton (h : Replaced u n [a] [a']) : a' = a.replaceLeaf n u := by
  cases h with
  | top => simp
  | push _ h => cases h

end Replaced

/-- The same tokens, with a tree in place of a leaf. -/
def Correspondence.replacing (n : Nat) (u : Tree) : Correspondence where
  token := Eq
  forest := Replaced u n
  text := fun v => v
  kind_eq := fun h => h ▸ rfl
  value_eq := fun h => h ▸ rfl
  length_eq := Replaced.length_eq
  leaf := fun h _ has => h ▸ .push _ has
  application := fun h _ has => h ▸ has.application
  operation := fun h _ has => h ▸ has.operation

namespace Yard

variable {y : Yard} {ts us : List Token}

theorem result_append : y.result (ts ++ us) = match y.readAll ts with
    | .ok z => z.result us
    | .error e => .error e.cause := by
  unfold result
  rw [readAll_append]
  cases y.readAll ts <;> rfl

theorem step_operand {x : Token} (hx : x.kind.isOperand) :
    y.step x = .ok { y with operands := y.operands.push (.leaf x) } := by
  unfold step
  match hk : x.kind with
  | .literal | .variable => rfl
  | .operator _ | .function | .leftParenthesis | .rightParenthesis | .comma =>
    rw [hk] at hx
    cases hx

/-- The leaf comes after the leaves of the operands that are already there. -/
theorem result_parenthesized {inner post : List Token} {p q x : Token} {u : Tree}
    (hy : ∀ f ∈ y.operators.head?, f.kind ≠ .function) (hp : p.kind = .leftParenthesis)
    (hx : x.kind.isOperand) (hq : q.kind = .rightParenthesis) (h : parse inner = .ok u) :
    y.result (p :: (inner ++ [q]) ++ post) =
      (y.result ([x] ++ post)).map (·.replaceLeaf y.operands.leaves.length u) := by
  obtain ⟨built, hread⟩ := readAll_group hy hp hq h
  have hleaf : y.readAll [x] = .ok { y with operands := y.operands.push (.leaf x) } := by
    rw [readAll_cons, step_operand hx, ok_bind]
    rfl
  have hlength : y.operands.leaves.length =
      (y.operands.trees.flatMap Tree.leaves).length := by
    simp [Operands.leaves, List.length_flatMap]
  have hyards : (Correspondence.replacing y.operands.leaves.length u).Yards
      { y with operands := y.operands.push (.leaf x) }
      ⟨y.operators, u :: y.operands.trees, y.operands.marks, built⟩ := by
    refine ⟨List.forall₂_same.2 fun _ _ => rfl, ?_, rfl⟩
    rw [hlength]
    exact .top (a := .leaf x) (k := 0) y.operands.trees Nat.zero_lt_one
  have hresult := hyards.result (List.forall₂_same.2 fun t (_ : t ∈ post) => rfl)
  have hmap := hresult.eq_map (g := fun e => e) (fun e e' he => he.trans e.mapText_id)
    fun a b => Replaced.singleton
  rw [result_append, result_append, hread, hleaf]
  dsimp only
  rw [hmap]
  cases Yard.result _ post <;> rfl

end Yard

/-- An accepted list in parentheses and an operand parse alike in every context: with the
same error, or with the same tree but for the leaf of the operand. The leaves are the
operands of the list in order, so that leaf is the one after those of what comes before. -/
theorem parse_parenthesized {pre inner post : List Token} {p q x : Token} {u : Tree}
    (hpre : FunctionsCall pre) (hp : p.kind = .leftParenthesis) (hx : x.kind.isOperand)
    (hq : q.kind = .rightParenthesis) (h : parse inner = .ok u) :
    parse (pre ++ [p] ++ inner ++ [q] ++ post) = (parse (pre ++ [x] ++ post)).map
        (·.replaceLeaf (pre.filter (·.kind.isOperand)).length u) ∧
      ∀ t, parse (pre ++ [x] ++ post) = .ok t →
        t.leaves = pre.filter (·.kind.isOperand) ++ x :: post.filter (·.kind.isOperand) := by
  constructor
  · have hgroup : pre ++ [p] ++ inner ++ [q] ++ post = pre ++ (p :: (inner ++ [q]) ++ post) := by
      simp
    rw [hgroup, List.append_assoc, parse_eq_result, parse_eq_result, Yard.result_append,
      Yard.result_append]
    cases hy : Yard.readAll {} pre with
    | error e => rfl
    | ok y =>
      rw [← Yard.leaves_readAll hy]
      refine Yard.result_parenthesized (fun f hf hkind => ?_) hp hx hq h
      obtain ⟨hchain, hlast⟩ := functionsCall_iff.1 hpre
      obtain ⟨g, hg, hkind⟩ := (Yard.functionsBelow hy hchain).top f hf hkind
      exact hlast g hg hkind
  · intro t ht
    rw [leaves_of_parse ht]
    simp [hx]

/-- The difference `a-b` in the place of `x` in `f(c-x)^x`. -/
theorem parse_parenthesized_difference :
    let f : Token := ⟨.ofName ['f'], 1⟩
    let p : Token := ⟨.leftParenthesis, 2⟩
    let c : Token := ⟨.ofLetter 'c', 3⟩
    let minus : Token := ⟨.ofOperator .subtract, 4⟩
    let x : Token := ⟨.ofLetter 'x', 5⟩
    let q : Token := ⟨.rightParenthesis, 6⟩
    let power : Token := ⟨.ofOperator .power, 7⟩
    let a : Token := ⟨.ofLetter 'a', 8⟩
    let b : Token := ⟨.ofLetter 'b', 9⟩
    parse [a, minus, b] = .ok (.operation minus (.leaf a) (.leaf b)) ∧
      FunctionsCall [f, p, c, minus] ∧
      parse [f, p, c, minus, p, a, minus, b, q, q, power, x] = .ok (.operation power
        (.application f (.operation minus (.leaf c) (.operation minus (.leaf a) (.leaf b))))
        (.leaf x)) := by
  intro f p c minus x q power a b
  have hinner : parse [a, minus, b] = .ok (.operation minus (.leaf a) (.leaf b)) := rfl
  have hcall : FunctionsCall [f, p, c, minus] := functionsCall_iff.2 (by decide)
  refine ⟨hinner, hcall, ?_⟩
  have h : parse ([f, p, c, minus] ++ [p] ++ [a, minus, b] ++ [q] ++ [q, power, x]) = _ :=
    (parse_parenthesized hcall rfl (rfl : x.kind.isOperand = true) rfl hinner).1
  exact h

end InfixTree
