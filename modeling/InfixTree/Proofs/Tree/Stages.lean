import InfixTree.Proofs.Tree.Levels
import Mathlib.Data.List.SplitBy
import Mathlib.Logic.Function.Basic

/-! Stages of evaluation. The walk backwards comes to the deepest level first and goes through each
from left to right. No level above the last is without an operation, so there is a stage for each
of them, and when a node is reached everything below it has been. To evaluate the nodes one by one
in this order therefore never finds an operand whose value is not there yet. -/
namespace InfixTree.Tree

variable {t n c : Tree} {s : Side} {p : Place} {d : Nat}

/-! ### Stages -/

/-- The nodes with operands at a depth, from left to right. -/
def stageAt (t : Tree) (d : Nat) : List Tree := (t.atDepth d).filter (!·.isLeaf)

theorem stageAt_ne_nil (h : d < t.height) : t.stageAt d ≠ [] := by
  obtain ⟨n, hn, hheight⟩ := exists_atDepth (Nat.le_of_lt h)
  have hnot : n.isLeaf = false := by
    rw [Bool.eq_false_iff, ne_eq, isLeaf_iff]
    omega
  exact List.ne_nil_of_mem (List.mem_filter.2 ⟨hn, by simp [hnot]⟩)

theorem stageAt_height (t : Tree) : t.stageAt t.height = [] := by
  refine List.filter_eq_nil_iff.2 fun n hn => ?_
  have hle := height_add_le hn
  have hleaf : n.isLeaf := isLeaf_iff.2 (by omega)
  simp [hleaf]

theorem reverse_operations (t : Tree) : (t.levelOrder.filter (!·.1.isLeaf)).reverse =
    ((List.range t.height).reverse.map fun d => (t.stageAt d).map (·, d)).flatten := by
  have hlevel : ∀ d, ((t.atDepth d).reverse.map (·, d)).filter (!·.1.isLeaf) =
      (t.stageAt d).reverse.map (·, d) := fun d => by
    rw [List.filter_map, List.filter_reverse]
    rfl
  calc (t.levelOrder.filter (!·.1.isLeaf)).reverse
      = ((List.range (t.height + 1)).flatMap
          fun d => (t.stageAt d).reverse.map (·, d)).reverse := by
        rw [levelOrder_eq, List.filter_flatMap]
        simp only [hlevel]
    _ = (List.range (t.height + 1)).reverse.flatMap fun d => (t.stageAt d).map (·, d) := by
        rw [List.reverse_flatMap]
        simp only [Function.comp_def, List.map_reverse, List.reverse_reverse]
    _ = ((List.range t.height).reverse.map fun d => (t.stageAt d).map (·, d)).flatten := by
        rw [List.range_succ, List.reverse_append, List.flatMap_append, ← List.flatMap_def]
        simp [stageAt_height]

/-- Levels that are put together in falling order can be told apart by depth. -/
theorem splitBy_levels {levels : Nat → List Tree} {m : Nat} (h : ∀ d < m, levels d ≠ []) :
    ((List.range m).reverse.map fun d => (levels d).map (·, d)).flatten.splitBy (·.2 == ·.2) =
      (List.range m).reverse.map fun d => (levels d).map (·, d) := by
  have hdepth : ∀ d, ∀ x ∈ (levels d).map (·, d), x.2 = d := by simp
  have hne : ∀ d ∈ (List.range m).reverse, (levels d).map (·, d) ≠ [] := fun d hd =>
    mt List.map_eq_nil_iff.1 (h d (by simpa using hd))
  refine List.splitBy_flatten ?_ ?_ ?_
  · intro hmem
    obtain ⟨d, hd, hnil⟩ := List.mem_map.1 hmem
    exact hne d hd hnil
  · intro level hlevel
    obtain ⟨d, -, rfl⟩ := List.mem_map.1 hlevel
    refine List.Pairwise.isChain (List.pairwise_of_forall_mem_list fun x hx y hy => ?_)
    rw [hdepth d x hx, hdepth d y hy]
    exact beq_self_eq_true d
  · rw [List.isChain_map]
    have hfalling : (List.range m).reverse.Pairwise (fun i j => j < i) :=
      List.pairwise_reverse.2 List.pairwise_lt_range
    refine (hfalling.imp_of_mem fun {i j} hi hj hlt => ?_).isChain
    refine ⟨hne i hi, hne j hj, ?_⟩
    rw [hdepth i _ (List.getLast_mem (hne i hi)), hdepth j _ (List.head_mem (hne j hj))]
    exact beq_false_of_ne (Nat.ne_of_gt hlt)

/-- There is a stage for each level above the last, the deepest first. -/
theorem stages_eq (t : Tree) : t.stages = (List.range t.height).reverse.map t.stageAt := by
  rw [stages, reverse_operations, splitBy_levels fun d => stageAt_ne_nil, List.map_map]
  refine List.map_congr_left fun d _ => ?_
  simp [Function.comp_def]

theorem length_stages (t : Tree) : t.stages.length = t.height := by
  rw [stages_eq, List.length_map, List.length_reverse, List.length_range]

theorem getElem?_stages (h : d < t.height) :
    t.stages[d]? = some (t.stageAt (t.height - 1 - d)) := by
  have hd : d < (List.range t.height).length := by rwa [List.length_range]
  rw [stages_eq, List.getElem?_map, List.getElem?_reverse hd, List.length_range,
    List.getElem?_range (by omega), Option.map_some]

theorem flatten_stages_perm (t : Tree) :
    t.stages.flatten.Perm (t.preorder.filter (!·.isLeaf)) := by
  have hflatten : t.stages.flatten = ((t.levelOrder.map (·.1)).filter (!·.isLeaf)).reverse := by
    rw [stages, ← List.map_flatten, List.flatten_splitBy, List.map_reverse, List.filter_map]
    rfl
  rw [hflatten]
  exact (List.reverse_perm _).trans (t.levelOrder_perm.filter _)

theorem mem_preorder_of_mem_stages {stage : List Tree} (hstage : stage ∈ t.stages)
    (hn : n ∈ stage) : n ∈ t.preorder := by
  rw [stages_eq] at hstage
  obtain ⟨d, -, rfl⟩ := List.mem_map.1 hstage
  exact mem_preorder_of_mem_atDepth (List.mem_of_mem_filter hn)

/-! ### Orders of evaluation -/

/-- The nodes with operands stand in an order in which they can be evaluated. -/
structure EvaluationOrder (t : Tree) (order : List Place) : Prop where
  /-- All of them are there, and nothing else. -/
  mem_iff : ∀ p, p ∈ order ↔ ∃ n, t.subtree? p = some n ∧ n.isLeaf = false
  /-- Each is there once. -/
  nodup : order.Nodup
  /-- It comes after all of those below it. -/
  below_first : ∀ before p after, order = before ++ p :: after →
    ∀ q ∈ order, p <+: q → q ≠ p → q ∈ before

/-- Whether there is a node with operands at a place. -/
def isOperationAt (t : Tree) (p : Place) : Bool := (t.subtree? p).any (!·.isLeaf)

theorem isOperationAt_iff :
    t.isOperationAt p ↔ ∃ n, t.subtree? p = some n ∧ n.isLeaf = false := by
  simp [isOperationAt, Option.any_eq_true]

/-- The stages put together are the walk backwards, without the leaves. -/
theorem flatten_stages (t : Tree) :
    t.stages.flatten = (t.walk.filter t.isOperationAt).reverse.filterMap t.subtree? := by
  have hcalls : t.levelOrder.filter (!·.1.isLeaf) =
      (t.walk.filter t.isOperationAt).filterMap fun p => (t.subtree? p).map (·, p.length) := by
    rw [levelOrder_eq_walk, List.filter_filterMap, List.filterMap_filter]
    congr 1
    funext p
    cases h : t.subtree? p <;> simp [isOperationAt, h, Option.filter_some]
  rw [stages, ← List.map_flatten, List.flatten_splitBy, hcalls, List.map_reverse,
    List.map_filterMap, List.filterMap_reverse]
  simp [Function.comp_def]

/-- What the walk comes to later is no higher up, and what hangs from a node is deeper. -/
theorem evaluationOrder_walk (t : Tree) :
    t.EvaluationOrder (t.walk.filter t.isOperationAt).reverse := by
  have hordered : (t.walk.filter t.isOperationAt).reverse.Pairwise fun p q => Place.Sooner q p :=
    List.pairwise_reverse.2 (t.pairwise_walk.filter _)
  refine ⟨fun p => ?_, hordered.imp fun h => h.ne.symm, ?_⟩
  · rw [List.mem_reverse, List.mem_filter, mem_walk, isOperationAt_iff, Option.isSome_iff_exists]
    exact ⟨And.right, fun h => ⟨h.imp fun n hn => hn.1, h⟩⟩
  · intro before p after horder q hq hbelow hne
    rw [horder] at hq hordered
    rcases List.mem_append.1 hq with hq | hq
    · exact hq
    · have hafter : q ∈ after := (List.mem_cons.1 hq).resolve_left hne
      have hsooner := (List.pairwise_cons.1 (List.pairwise_append.1 hordered).2.1).1 q hafter
      exact absurd (hbelow.eq_of_length_le hsooner.length_le).symm hne

theorem EvaluationOrder.operand_first {order before after : List Place}
    (h : t.EvaluationOrder order) (horder : order = before ++ p :: after)
    (hn : t.subtree? p = some n) (hc : n.child? s = some c) : c.isLeaf ∨ p ++ [s] ∈ before := by
  cases hleaf : c.isLeaf with
  | true => exact .inl rfl
  | false =>
    have hmem : p ++ [s] ∈ order :=
      (h.mem_iff _).2 ⟨c, subtree?_concat_eq_some.2 ⟨n, hn, hc⟩, hleaf⟩
    exact .inr (h.below_first before p after horder _ hmem (List.prefix_append _ _) (by simp))

/-! ### Evaluation -/

section

variable {α : Type} (f : Token → List α → α)

/-- The value of a tree, where `f` tells what a token makes of the values of its operands. -/
def eval : Tree → α
  | leaf t => f t []
  | application g a => f g [a.eval]
  | operation o l r => f o [l.eval, r.eval]

/-- The sides on which a node has operands. -/
def sides : Tree → List Side
  | leaf _ => []
  | application _ _ => [.left]
  | operation _ _ _ => [.left, .right]

/-- Before anything is evaluated only the values of leaves are known. -/
def leafValues (t : Tree) (p : Place) : Option α :=
  (t.subtree? p).bind fun n => if n.isLeaf then some (f n.token []) else none

/-- Evaluates the node at a place, which takes that the values of its operands are known. -/
def evaluateAt (t : Tree) (known : Place → Option α) (p : Place) : Option (Place → Option α) := do
  let n ← t.subtree? p
  let operands ← n.sides.mapM fun s => known (p ++ [s])
  return Function.update known p (some (f n.token operands))

/-- The values of leaves are known and those at the places that are done. -/
def Knows (t : Tree) (done : List Place) (known : Place → Option α) : Prop :=
  ∀ p n, t.subtree? p = some n → n.isLeaf ∨ p ∈ done → known p = some (n.eval f)

variable {f} {known : Place → Option α} {order done : List Place}

theorem eval_eq (n : Tree) : n.eval f = f n.token (n.children.map (eval f)) := by
  cases n <;> rfl

theorem knows_leafValues : t.Knows f [] (t.leafValues f) := by
  intro p n hn hdone
  have hleaf : n.isLeaf := hdone.resolve_right List.not_mem_nil
  rw [leafValues, hn, Option.bind_some, if_pos hleaf, eval_eq, List.isEmpty_iff.1 hleaf,
    List.map_nil]

/-- Where the operands are known, a node is evaluated to its value. -/
theorem Knows.evaluateAt (h : t.Knows f done known) (hn : t.subtree? p = some n)
    (hoperands : ∀ s c, n.child? s = some c → c.isLeaf ∨ p ++ [s] ∈ done) :
    ∃ known', t.evaluateAt f known p = some known' ∧ t.Knows f (done ++ [p]) known' := by
  have hvalues : (n.sides.mapM fun s => known (p ++ [s])) = some (n.children.map (eval f)) := by
    have hvalue : ∀ s c, n.child? s = some c → known (p ++ [s]) = some (c.eval f) := fun s c hc =>
      h _ c (subtree?_concat_eq_some.2 ⟨n, hn, hc⟩) (hoperands s c hc)
    cases n with
    | leaf => rfl
    | application g a => simp [sides, children, hvalue .left a rfl]
    | operation o l r => simp [sides, children, hvalue .left l rfl, hvalue .right r rfl]
  refine ⟨Function.update known p (some (n.eval f)), ?_, fun q m hm hdone => ?_⟩
  · simp [Tree.evaluateAt, hn, hvalues, eval_eq n]
  · by_cases hq : q = p
    · subst hq
      rw [hn] at hm
      rw [Function.update_self, Option.some.inj hm]
    · rw [Function.update_of_ne hq]
      exact h q m hm (hdone.imp_right fun hmem => by simpa [hq] using hmem)

theorem EvaluationOrder.knows_foldlM (h : t.EvaluationOrder order) {rest : List Place}
    (horder : order = done ++ rest) (hknown : t.Knows f done known) :
    ∃ known', rest.foldlM (t.evaluateAt f) known = some known' ∧ t.Knows f order known' := by
  induction rest generalizing done known with
  | nil =>
    rw [List.append_nil] at horder
    exact ⟨known, rfl, horder ▸ hknown⟩
  | cons p rest ih =>
    obtain ⟨n, hn, -⟩ := (h.mem_iff p).1 (horder ▸ List.mem_append_right _ List.mem_cons_self)
    obtain ⟨next, hnext, hdone⟩ :=
      hknown.evaluateAt hn fun s c hc => h.operand_first horder hn hc
    obtain ⟨last, hlast, hall⟩ := ih (by rw [horder, List.append_assoc]; rfl) hdone
    exact ⟨last, by rw [List.foldlM_cons, hnext]; exact hlast, hall⟩

theorem EvaluationOrder.exists_value (h : t.EvaluationOrder order) (f : Token → List α → α) :
    ∃ known, order.foldlM (t.evaluateAt f) (t.leafValues f) = some known ∧
      known [] = some (t.eval f) := by
  obtain ⟨known, hknown, hall⟩ := h.knows_foldlM (List.nil_append order).symm knows_leafValues
  refine ⟨known, hknown, hall [] t rfl ?_⟩
  cases hleaf : t.isLeaf with
  | true => exact .inl rfl
  | false => exact .inr ((h.mem_iff []).2 ⟨t, rfl, hleaf⟩)

end

/-- There are as many stages as the tree is high, none of them empty. Each has the nodes with
operands at one depth from left to right, from the deepest level up to the root. Put together they
are an order of evaluation: whatever the tokens mean, to go through it gives the value of the
tree. -/
theorem stages_by_depth (t : Tree) :
    t.stages.length = (t.measure ∅).1 ∧ (∀ stage ∈ t.stages, stage ≠ []) ∧
      (∀ i < (t.measure ∅).1, t.stages[i]? = some
        (((Place.atDepth ((t.measure ∅).1 - 1 - i)).filterMap t.subtree?).filter (!·.isLeaf))) ∧
      ∃ order, t.stages.flatten = order.filterMap t.subtree? ∧ t.EvaluationOrder order ∧
        ∀ (α : Type) (f : Token → List α → α), ∃ known,
          order.foldlM (t.evaluateAt f) (t.leafValues f) = some known ∧
            known [] = some (t.eval f) := by
  rw [measure_fst]
  refine ⟨t.length_stages, ?_, fun i hi => ?_, _, t.flatten_stages, t.evaluationOrder_walk,
    fun α f => t.evaluationOrder_walk.exists_value f⟩
  · rw [stages_eq]
    refine List.forall_mem_map.2 fun d hd => stageAt_ne_nil ?_
    simpa using hd
  · rw [getElem?_stages hi, stageAt, atDepth_eq]

/-- The two operands of `(a-b)*f(c)` are one stage, and the product is another. -/
theorem stages_by_depth_product :
    let difference : Tree := .operation ⟨.ofOperator .subtract, 3⟩
      (.leaf ⟨.ofLetter 'a', 2⟩) (.leaf ⟨.ofLetter 'b', 4⟩)
    let call : Tree := .application ⟨.ofName ['f'], 7⟩ (.leaf ⟨.ofLetter 'c', 9⟩)
    let t : Tree := .operation ⟨.ofOperator .multiply, 6⟩ difference call
    (t.measure ∅).1 = 2 ∧ t.stages = [[difference, call], [t]] ∧ [difference, call] ≠ [] ∧
      t.stages[0]? = some (((Place.atDepth 1).filterMap t.subtree?).filter (!·.isLeaf)) ∧
      ∃ order, t.stages.flatten = order.filterMap t.subtree? ∧ t.EvaluationOrder order := by
  intro difference call t
  have hheight : (t.measure ∅).1 = 2 := measure_fst t ∅
  have hstages : t.stages = [[difference, call], [t]] := stages_eq t
  obtain ⟨-, hne, hstage, order, hflatten, horder, -⟩ := stages_by_depth t
  rw [hheight] at hstage
  exact ⟨hheight, hstages, hne _ (hstages ▸ List.mem_cons_self), hstage 0 (by decide), order,
    hflatten, horder⟩

end InfixTree.Tree
