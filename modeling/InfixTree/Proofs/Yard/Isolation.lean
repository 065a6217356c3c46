import InfixTree.Proofs.Tree.Places
import InfixTree.Proofs.Yard.Conservation
import InfixTree.Proofs.Yard.Nesting
import Mathlib.Data.List.Nodup

/-! Groups are isolated. What stands in a pair of parentheses is read as it would be by
itself, and the trees it leaves are never taken apart, so the nodes that wrap its tokens are
the nodes of those trees. An operator takes operands of its own group only, and a function
takes all of the group it is called with. -/
namespace InfixTree

namespace Tree

variable {t n : Tree}

theorem tokens_subset (h : n ∈ t.preorder) : n.tokens ⊆ t.tokens :=
  List.map_subset _ (preorder_subset h)

/-- The subtree is rooted at the node that wraps the token, and no other node does. -/
structure SubtreeAt (a : Tree) (t : Token) (n : Tree) : Prop where
  mem : n ∈ a.preorder
  token_eq : n.token = t
  unique : ∀ m ∈ a.preorder, m.token = t → m = n

end Tree

namespace Operands

variable {s s' : Operands} {t : Token}

/-- The nodes of all trees on the stack. -/
def nodes (s : Operands) : List Tree := s.trees.flatMap Tree.preorder

theorem nodes_operate (h : s.operate t = .ok s') : s.nodes ⊆ s'.nodes := by
  obtain ⟨r, l, rest, hs, -, rfl⟩ := operate_eq_ok.1 h
  intro n hn
  simp only [nodes, hs, build, List.flatMap_cons, Tree.preorder, List.mem_append,
    List.mem_cons] at hn ⊢
  tauto

theorem nodes_apply (h : s.apply t = .ok s') : s.nodes ⊆ s'.nodes := by
  obtain ⟨a, rest, hs, -, rfl⟩ := apply_eq_ok.1 h
  intro n hn
  simp only [nodes, hs, build, List.flatMap_cons, Tree.preorder, List.mem_append,
    List.mem_cons] at hn ⊢
  tauto

end Operands

namespace Yard

variable {p : Operator → Bool} {ops ops' ts inner : List Token} {s s' : Operands}
  {base y y' : Yard} {t f q w : Token}

theorem nodes_reduce (h : reduce p ops s = .ok ⟨ops', s'⟩) : s.nodes ⊆ s'.nodes :=
  (reduce_induction (P := fun _ u => s.nodes ⊆ u.nodes)
    (fun _ _ hu hs => List.Subset.trans hs (Operands.nodes_operate hu)) h (List.Subset.refl _)).1

theorem nodes_step (h : Step y t y') : y.operands.nodes ⊆ y'.operands.nodes := by
  cases h with
  | operand => exact List.subset_append_right _ _
  | function | openGroup => exact List.Subset.refl _
  | operator _ hr => exact nodes_reduce hr
  | @closeGroup q ops s _ hr =>
    have hreduced : y.operands.nodes ⊆ s.nodes := nodes_reduce hr
    exact hreduced
  | @closeCall q f ops s s' _ hr _ _ _ happly =>
    have hclose : s.closeGroup.2.nodes = s.nodes := rfl
    exact List.Subset.trans (nodes_reduce hr) (hclose ▸ Operands.nodes_apply happly)

theorem nodes_readAll (h : y.readAll ts = .ok y') : y.operands.nodes ⊆ y'.operands.nodes := by
  induction ts generalizing y with
  | nil =>
    cases h
    exact List.Subset.refl _
  | cons t ts ih =>
    rw [readAll_cons, bind_eq_ok] at h
    obtain ⟨z, hz, h⟩ := h
    exact List.Subset.trans (nodes_step (step_of_ok hz)) (ih h)

theorem leaveGroup_call (hf : f.kind = .function) (hmarks : s.marks = [])
    (h : leaveGroup (f :: ops) (base.operands.above s) = .ok y') :
    ∃ a, s.trees = [a] ∧ y'.operands.trees = .application f a :: base.operands.trees := by
  unfold leaveGroup at h
  rw [Operands.above_closeGroup_nil hmarks] at h
  simp only [hf, if_true, bind_eq_ok] at h
  obtain ⟨u, hu, h⟩ := h
  cases h
  obtain ⟨hone, hu⟩ := Operands.call_eq_ok.1 hu
  obtain ⟨a, hs⟩ := List.length_eq_one_iff.1 hone
  obtain ⟨b, rest, htrees, -, rfl⟩ := Operands.apply_eq_ok.1 hu
  rw [hs] at htrees
  obtain ⟨rfl, rfl⟩ := List.cons.inj htrees
  exact ⟨a, hs, rfl⟩

/-- What a balanced list leaves by itself, it leaves in parentheses. -/
theorem nodes_of_group (hp : w.kind = .leftParenthesis) (hq : q.kind = .rightParenthesis)
    (hinner : Balanced inner) (h : base.readAll (w :: (inner ++ [q])) = .ok y') :
    ∃ s, arrange inner = .ok s ∧ s.nodes ⊆ y'.operands.nodes := by
  obtain ⟨s, hs, hleave⟩ := exists_arrange_of_group hp hq hinner h
  have hmarks := marks_of_arrange hs
  refine ⟨s, hs, ?_⟩
  by_cases hops : ∃ f ∈ base.operators.head?, f.kind = .function
  · obtain ⟨f, hf, hkind⟩ := hops
    obtain ⟨ops, hops⟩ := List.head?_eq_some_iff.1 hf
    rw [hops] at hleave
    obtain ⟨a, hone, htrees⟩ := leaveGroup_call hkind hmarks hleave
    simp [Operands.nodes, hone, htrees, Tree.preorder]
  · have hnone : ∀ f ∈ base.operators.head?, f.kind ≠ .function := fun f hf hkind =>
      hops ⟨f, hf, hkind⟩
    rw [leaveGroup_above hnone hmarks] at hleave
    cases hleave
    simp [Operands.nodes]

end Yard

section Parsed

variable {ts before inner after : List Token} {p q f : Token} {a n : Tree}

theorem readAll_of_parse {us : List Token} (h : parse (ts ++ us) = .ok a) : ∃ y,
    Yard.readAll {} ts = .ok y ∧ ∃ z, y.readAll us = .ok z ∧ z.operands.nodes ⊆ a.preorder := by
  obtain ⟨z, s, hread, hr, hs⟩ := parse_eq_ok.1 h
  rw [Yard.readAll_append, bind_eq_ok] at hread
  obtain ⟨y, hy, hz⟩ := hread
  refine ⟨y, hy, z, hz, ?_⟩
  simpa [Operands.nodes, hs] using Yard.nodes_reduce hr

/-- The trees that a group leaves are subtrees in the end. -/
theorem exists_arrange_of_pair (h : parse ts = .ok a) (hpair : Pair ts before p inner q after) :
    ∃ s, arrange inner = .ok s ∧ s.nodes ⊆ a.preorder := by
  obtain ⟨hts, hp, hq, hinner⟩ := hpair
  have hsplit : ts = before ++ ((p :: (inner ++ [q])) ++ after) := by simp [hts]
  rw [hsplit] at h
  obtain ⟨y, -, z, hz, hnodes⟩ := readAll_of_parse h
  rw [Yard.readAll_append, bind_eq_ok] at hz
  obtain ⟨y', hgroup, hz⟩ := hz
  obtain ⟨s, hs, hsub⟩ := Yard.nodes_of_group hp hq hinner hgroup
  exact ⟨s, hs, List.Subset.trans (List.Subset.trans hsub (Yard.nodes_readAll hz)) hnodes⟩

theorem exists_application_of_pair (h : parse ts = .ok a) (hf : f.kind = .function)
    (hpair : Pair ts (before ++ [f]) p inner q after) :
    ∃ b, .application f b ∈ a.preorder ∧ b.tokens.Perm (inner.filter (·.kind.isNode)) := by
  obtain ⟨hts, hp, hq, hinner⟩ := hpair
  have hsplit : ts = before ++ ([f] ++ ((p :: (inner ++ [q])) ++ after)) := by simp [hts]
  rw [hsplit] at h
  obtain ⟨y, -, z, hz, hnodes⟩ := readAll_of_parse h
  have hcall : y.readAll [f] = .ok { y with operators := f :: y.operators } := by
    rw [Yard.readAll_cons]
    simp only [Yard.step, hf]
    rfl
  rw [Yard.readAll_append, hcall, ok_bind, Yard.readAll_append, bind_eq_ok] at hz
  obtain ⟨y', hgroup, hz⟩ := hz
  obtain ⟨s, hs, hleave⟩ := Yard.exists_arrange_of_group hp hq hinner hgroup
  obtain ⟨b, hone, htrees⟩ := Yard.leaveGroup_call hf (Yard.marks_of_arrange hs) hleave
  refine ⟨b, hnodes (Yard.nodes_readAll hz ?_), ?_⟩
  · simp [Operands.nodes, htrees, Tree.preorder]
  · simpa [hone] using tokens_perm_of_arrange hs

/-- Where ids are distinct, a node is told by its token. -/
theorem subtreeAt_of_mem (hids : (ts.map (·.id)).Nodup) (h : parse ts = .ok a)
    (hn : n ∈ a.preorder) : a.SubtreeAt n.token n where
  mem := hn
  token_eq := rfl
  unique := fun m hm heq => by
    have hnodup : (a.preorder.map Tree.token).Nodup :=
      (tokens_perm_of_parse h).nodup_iff.2 ((List.Nodup.of_map _ hids).filter _)
    exact List.inj_on_of_nodup_map hnodup hm hn heq

theorem exists_subtree_of_pair (hids : (ts.map (·.id)).Nodup) (h : parse ts = .ok a)
    (hpair : Pair ts before p inner q after) {t : Token} (ht : t ∈ inner)
    (hnode : t.kind.isNode) : ∃ n, a.SubtreeAt t n ∧ ∀ u ∈ n.tokens, u ∈ inner := by
  obtain ⟨s, hs, hnodes⟩ := exists_arrange_of_pair h hpair
  have hperm := tokens_perm_of_arrange hs
  have hmem : t ∈ s.trees.flatMap Tree.tokens :=
    hperm.mem_iff.2 (List.mem_filter.2 ⟨ht, hnode⟩)
  obtain ⟨b, hb, htb⟩ := List.mem_flatMap.1 hmem
  obtain ⟨n, hn, rfl⟩ := List.mem_map.1 htb
  refine ⟨n, subtreeAt_of_mem hids h (hnodes (List.mem_flatMap.2 ⟨b, hb, hn⟩)), fun u hu => ?_⟩
  have hall : u ∈ s.trees.flatMap Tree.tokens :=
    List.mem_flatMap.2 ⟨b, hb, Tree.tokens_subset hn hu⟩
  exact (List.mem_filter.1 (hperm.subset hall)).1

/-- Groups are isolated: the subtree of an operator in a pair of parentheses lies within the
pair, and the subtree of a function is the function with all that a node can wrap in its
own pair. -/
theorem groups_isolated (hids : (ts.map (·.id)).Nodup) (hts : FunctionsCall ts)
    (h : parse ts = .ok a) :
    (∀ before p inner q after, Pair ts before p inner q after → ∀ t ∈ inner,
      (∃ o, t.kind = .operator o) → ∃ n, a.SubtreeAt t n ∧ ∀ u ∈ n.tokens, u ∈ inner) ∧
    ∀ before f rest, ts = before ++ f :: rest → f.kind = .function →
      (∃ p inner q after, Pair ts (before ++ [f]) p inner q after) ∧
      ∀ p inner q after, Pair ts (before ++ [f]) p inner q after → ∃ n, a.SubtreeAt f n ∧
        n.tokens.Perm (f :: inner.filter (·.kind.isNode)) := by
  constructor
  · rintro before p inner q after hpair t ht ⟨o, ho⟩
    exact exists_subtree_of_pair hids h hpair ht (by rw [ho]; rfl)
  · intro before f rest hlist hf
    constructor
    · obtain ⟨p, hhead, hp⟩ := hts before f rest hlist hf
      obtain ⟨rest', rfl⟩ := List.head?_eq_some_iff.1 hhead
      obtain ⟨y, s, hy, hr, -⟩ := parse_eq_ok.1 h
      have hbalanced := Yard.balanced_of_reduceAll hy hr
      have hlist' : ts = before ++ [f] ++ p :: rest' := by simp [hlist]
      obtain ⟨inner, q, after, hpair⟩ := hbalanced.exists_pair hlist' hp
      exact ⟨p, inner, q, after, hpair⟩
    · intro p inner q after hpair
      obtain ⟨b, hb, hperm⟩ := exists_application_of_pair h hf hpair
      exact ⟨_, subtreeAt_of_mem hids h hb, by simpa using hperm⟩

/-- In `((2)f(3-x))*y-` the outer group leaves two operands, and operators that come later take
both, but neither `2` nor `y` gets into the call. -/
theorem groups_isolated_leaving_two :
    let ts := tokenize "((2)f(3-x))*y-"
    let f : Token := ⟨.ofName ['f'], 5⟩
    let p : Token := ⟨.leftParenthesis, 6⟩
    let three : Token := ⟨.ofDigits ['3'], 7⟩
    let minus : Token := ⟨.ofOperator .subtract, 8⟩
    let x : Token := ⟨.ofLetter 'x', 9⟩
    let q : Token := ⟨.rightParenthesis, 10⟩
    (ts.map (·.id)).Nodup ∧ FunctionsCall ts ∧ ∃ a, parse ts = .ok a ∧
      Pair ts (ts.take 4 ++ [f]) p [three, minus, x] q (ts.drop 10) ∧
      (∃ n, a.SubtreeAt minus n ∧ ∀ u ∈ n.tokens, u ∈ [three, minus, x]) ∧
      ∃ n, a.SubtreeAt f n ∧ n.tokens.Perm [f, three, minus, x] := by
  intro ts f p three minus x q
  have hids : (ts.map (·.id)).Nodup := by decide
  have hcall : FunctionsCall ts := functionsCall_iff.2 (by decide)
  have hpair : Pair ts (ts.take 4 ++ [f]) p [three, minus, x] q (ts.drop 10) :=
    ⟨by decide, rfl, rfl, by decide⟩
  have hlist : ts = ts.take 4 ++ f :: ts.drop 5 := by decide
  obtain ⟨a, ha⟩ : ∃ a, parse ts = .ok a := ⟨_, rfl⟩
  obtain ⟨hgroup, hown⟩ := groups_isolated hids hcall ha
  exact ⟨hids, hcall, a, ha, hpair, hgroup _ _ _ _ _ hpair minus (by decide) ⟨_, rfl⟩,
    (hown _ _ _ hlist rfl).2 _ _ _ _ hpair⟩

end Parsed

end InfixTree
