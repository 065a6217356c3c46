import InfixTree.Proofs.Tree.Levels
import Mathlib.Data.List.Induction
import Mathlib.Data.List.Nodup

/-! Edges of trees. They come in the order of a walk that goes through each level from right to
left, but those of one node stand together, from left to right. Where ids are distinct nothing else
is lost: the edges from an id lead to the children of its node, so a tree can be built up again from
the id of its root. -/
namespace InfixTree.Tree

variable {t u n c : Tree} {es : List Edge}

/-- The edges from a node to its children. -/
def links (n : Tree) : List Edge := n.children.map fun c => ⟨n.id, c.id⟩

theorem edges_eq (t : Tree) : t.edges = (t.levelOrder.map (·.1)).flatMap links := by
  rw [List.flatMap_map]
  rfl

theorem preorder_perm_children (t : Tree) :
    t.preorder.Perm (t :: t.preorder.flatMap children) := by
  induction t with
  | leaf => exact .refl _
  | application f a ih =>
    rw [preorder, List.flatMap_cons]
    exact ih.cons _
  | operation o l r ihl ihr =>
    rw [preorder, List.flatMap_cons, List.flatMap_append]
    refine List.Perm.cons _ ((ihl.append ihr).trans ?_)
    rw [List.cons_append]
    exact List.perm_middle.cons l

/-- With the root's id, the ids that edges lead to are those of all nodes. -/
theorem targets_perm (t : Tree) :
    (t.id :: t.edges.map Edge.target).Perm (t.preorder.map id) := by
  have hedges : t.edges.map Edge.target =
      ((t.levelOrder.map (·.1)).flatMap children).map id := by
    rw [edges_eq, List.map_flatMap, List.map_flatMap]
    simp [links, Function.comp_def]
  rw [hedges]
  exact (((t.levelOrder_perm.flatMap_right _).cons t).trans t.preorder_perm_children.symm).map id

/-! ### Distinct ids -/

theorem filter_key_eq {α : Type} [DecidableEq α] {key : α → Nat} {l : List α} {x : α}
    (h : (l.map key).Nodup) (hx : x ∈ l) : l.filter (key · = key x) = [x] := by
  have hkey : ∀ y ∈ l, decide (key y = key x) = decide (y = x) := fun y hy =>
    decide_eq_decide.2 ⟨fun heq => List.inj_on_of_nodup_map h hy hx heq, congrArg key⟩
  rw [List.filter_congr hkey, List.filter_eq, List.count_eq_one_of_mem h.of_map hx]
  rfl

theorem filter_source_eq (ns : List Tree) (i : Nat) :
    (ns.flatMap links).filter (·.source = i) = (ns.filter (·.id = i)).flatMap links := by
  have hlinks : ∀ m : Tree, m.links.filter (·.source = i) = if m.id = i then m.links else [] :=
    fun m => by
      split_ifs with h <;> simp [links, h]
  induction ns with
  | nil => rfl
  | cons m ns ih =>
    rw [List.flatMap_cons, List.filter_append, hlinks, ih]
    by_cases h : m.id = i <;> simp [h]

theorem filter_source (hids : (t.preorder.map id).Nodup) (hn : n ∈ t.preorder) :
    t.edges.filter (·.source = n.id) = n.links := by
  have hperm := t.levelOrder_perm
  have hnodup : ((t.levelOrder.map (·.1)).map id).Nodup := (hperm.map id).nodup_iff.2 hids
  rw [edges_eq, filter_source_eq, filter_key_eq hnodup (hperm.mem_iff.2 hn)]
  exact List.flatMap_singleton _ _

theorem mem_edges (hn : n ∈ t.preorder) (hc : c ∈ n.children) : ⟨n.id, c.id⟩ ∈ t.edges := by
  rw [edges_eq]
  exact List.mem_flatMap.2 ⟨n, t.levelOrder_perm.mem_iff.2 hn, List.mem_map_of_mem hc⟩

/-- Edges tell how the nodes of a tree hang together. -/
structure LinkedBy (t : Tree) (es : List Edge) : Prop where
  /-- There is an edge for each node but one. -/
  length_add_one : es.length + 1 = t.size
  /-- No edge leads to the root. -/
  to_root : ∀ e ∈ es, e.target ≠ t.id
  /-- To any other node leads one edge, which comes from its parent. -/
  to_child : ∀ p s c, t.subtree? (p ++ [s]) = some c →
    ∃ n, t.subtree? p = some n ∧ es.filter (·.target = c.id) = [⟨n.id, c.id⟩]
  /-- From any node edges lead to its children, to the left one before the right one. -/
  of_parent : ∀ p n, t.subtree? p = some n →
    (es.filter (·.source = n.id)).map Edge.target = n.children.map id

theorem linkedBy_edges (hids : (t.preorder.map id).Nodup) : t.LinkedBy t.edges := by
  have hperm := t.targets_perm
  obtain ⟨hroot, htargets⟩ := List.nodup_cons.1 (hperm.nodup_iff.2 hids)
  constructor
  · have hlength := hperm.length_eq
    rwa [List.length_cons, List.length_map, List.length_map, length_preorder] at hlength
  · intro e he heq
    exact hroot (heq ▸ List.mem_map_of_mem he)
  · intro p s c h
    obtain ⟨n, hn, hc⟩ := subtree?_concat_eq_some.1 h
    have hedge : ⟨n.id, c.id⟩ ∈ t.edges :=
      mem_edges (mem_preorder.2 ⟨p, hn⟩) (mem_children.2 ⟨s, hc⟩)
    exact ⟨n, hn, filter_key_eq htargets hedge⟩
  · intro p n hn
    rw [filter_source hids (mem_preorder.2 ⟨p, hn⟩), links, List.map_map]
    rfl

/-! ### Reading edges back -/

theorem map_id_child? (h : t.children.map id = u.children.map id) (s : Side) :
    (t.child? s).map id = (u.child? s).map id := by
  cases t <;> cases u <;> cases s <;> simp_all [children, child?]

/-- By the same edges only trees with the same ids at the same places are linked: what holds of a
node is handed on to its children. -/
theorem LinkedBy.map_id_subtree? (ht : t.LinkedBy es) (hu : u.LinkedBy es) (hroot : t.id = u.id)
    (p : Place) : (t.subtree? p).map id = (u.subtree? p).map id := by
  induction p using List.reverseRecOn with
  | nil => exact congrArg some hroot
  | append_singleton p s ih =>
    rw [subtree?_concat, subtree?_concat]
    cases hn : t.subtree? p with
    | none =>
      rw [hn, Option.map_none, eq_comm, Option.map_eq_none_iff] at ih
      rw [ih]
    | some n =>
      rw [hn, Option.map_some, eq_comm, Option.map_eq_some_iff] at ih
      obtain ⟨m, hm, hid⟩ := ih
      have hchildren := hu.of_parent p m hm
      rw [hid, ht.of_parent p n hn] at hchildren
      rw [hm]
      exact map_id_child? hchildren s

/-- Where ids are distinct the edges tell for every node what its children are and in which order,
and no two trees with one id at the root have the same edges unless they have the same ids at the
same places. -/
theorem edges_encode :
    (∀ t : Tree, (t.preorder.map id).Nodup → t.LinkedBy t.edges) ∧
      ∀ t u : Tree, (t.preorder.map id).Nodup → (u.preorder.map id).Nodup → t.id = u.id →
        t.edges = u.edges → ∀ p, (t.subtree? p).map id = (u.subtree? p).map id := by
  refine ⟨fun t => linkedBy_edges, fun t u ht hu hroot hedges => ?_⟩
  have hlinked : u.LinkedBy t.edges := hedges ▸ linkedBy_edges hu
  exact (linkedBy_edges ht).map_id_subtree? hlinked hroot

/-- In `(a-b)*f(c)` the edge of the call comes before those of the difference, which stands to the
left of it. `(1+2)/g(3)` has the same edges, for its nodes have the same ids. -/
theorem edges_encode_product :
    let tree (times minus a b f c : Lexeme) : Tree :=
      .operation ⟨times, 6⟩ (.operation ⟨minus, 3⟩ (.leaf ⟨a, 2⟩) (.leaf ⟨b, 4⟩))
        (.application ⟨f, 7⟩ (.leaf ⟨c, 9⟩))
    let t := tree (.ofOperator .multiply) (.ofOperator .subtract) (.ofLetter 'a') (.ofLetter 'b')
      (.ofName ['f']) (.ofLetter 'c')
    let u := tree (.ofOperator .divide) (.ofOperator .add) (.ofDigits ['1']) (.ofDigits ['2'])
      (.ofName ['g']) (.ofDigits ['3'])
    t.edges = [⟨6, 3⟩, ⟨6, 7⟩, ⟨7, 9⟩, ⟨3, 2⟩, ⟨3, 4⟩] ∧ t.edges = u.edges ∧
      (t.preorder.map id).Nodup ∧ (u.preorder.map id).Nodup ∧ t.id = u.id ∧ t.LinkedBy t.edges ∧
      ∀ p, (t.subtree? p).map id = (u.subtree? p).map id := by
  intro tree t u
  have hedges : t.edges = [⟨6, 3⟩, ⟨6, 7⟩, ⟨7, 9⟩, ⟨3, 2⟩, ⟨3, 4⟩] := by
    rw [edges, levelOrder_eq]
    rfl
  have hsame : t.edges = u.edges := by
    rw [hedges, edges, levelOrder_eq]
    rfl
  have ht : (t.preorder.map id).Nodup := by decide
  have hu : (u.preorder.map id).Nodup := by decide
  exact ⟨hedges, hsame, ht, hu, rfl, edges_encode.1 t ht, edges_encode.2 t u ht hu rfl hsame⟩

end InfixTree.Tree
