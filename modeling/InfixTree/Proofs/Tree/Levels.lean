import InfixTree.Proofs.Tree.Places
import InfixTree.Tree.Walk

/-! Levels of trees. While a level is visited the queue holds what is left of it and then the
children of what has gone, so the walk goes through one level after the other, each from right
to left. It therefore comes to every node once, and ends as deep as the tree is high. -/
namespace InfixTree.Tree

variable {t n : Tree} {p : Place} {d : Nat}

/-! ### Nodes at a depth -/

/-- The nodes at a depth from left to right, the root being at depth zero. -/
def atDepth : Nat → Tree → List Tree
  | 0, t => [t]
  | d + 1, t => t.children.flatMap (atDepth d)

/-- They are those to which the paths of that length lead. -/
theorem atDepth_eq (d : Nat) (t : Tree) :
    t.atDepth d = (Place.atDepth d).filterMap t.subtree? := by
  induction d generalizing t with
  | zero => rfl
  | succ d ih =>
    have hside : ∀ s : Side, ((Place.atDepth d).map (s :: ·)).filterMap t.subtree? =
        (t.child? s).toList.flatMap (atDepth d) := fun s => by
      rw [List.filterMap_map]
      cases hc : t.child? s <;> simp [Function.comp_def, subtree?_cons, hc, ih]
    rw [Place.atDepth, List.filterMap_append, hside, hside, ← List.flatMap_append]
    cases t <;> rfl

theorem mem_atDepth : n ∈ t.atDepth d ↔ ∃ p, t.subtree? p = some n ∧ p.length = d := by
  simp [atDepth_eq, Place.mem_atDepth, and_comm]

theorem height_add_le (h : n ∈ t.atDepth d) : n.height + d ≤ t.height := by
  obtain ⟨p, hp, rfl⟩ := mem_atDepth.1 h
  exact height_add_length_le hp

theorem exists_atDepth (h : d ≤ t.height) : ∃ n ∈ t.atDepth d, n.height + d = t.height := by
  obtain ⟨p, n, hp, hlength, hheight⟩ := exists_subtree? h
  exact ⟨n, mem_atDepth.2 ⟨p, hp, hlength⟩, hheight⟩

theorem mem_preorder_of_mem_atDepth (h : n ∈ t.atDepth d) : n ∈ t.preorder := by
  obtain ⟨p, hp, -⟩ := mem_atDepth.1 h
  exact mem_preorder.2 ⟨p, hp⟩

/-! ### The walk -/

/-- While a level is visited, the children of its nodes are queued. -/
theorem visit_level (level : List Tree) (d : Nat) (queue : List (Tree × Nat)) :
    visit (level.map (·, d) ++ queue) =
      level.map (·, d) ++ visit (queue ++ level.flatMap (·.queued d)) := by
  induction level generalizing queue with
  | nil => simp
  | cons t level ih =>
    rw [List.map_cons, List.cons_append, visit, List.append_assoc, ih]
    simp

/-- What a level queues is the next one, from right to left as well. -/
theorem flatMap_queued (level : List Tree) (d : Nat) : level.reverse.flatMap (·.queued d) =
    (level.flatMap children).reverse.map (·, d + 1) := by
  rw [List.reverse_flatMap, List.map_flatMap]
  rfl

/-- The walk from a level on goes through the levels below it in turn. -/
theorem visit_forest (level : List Tree) (d : Nat) {m : Nat} (h : ∀ t ∈ level, t.height < m) :
    visit (level.reverse.map (·, d)) =
      (List.range m).flatMap fun k => (level.flatMap (atDepth k)).reverse.map (·, d + k) := by
  induction m generalizing level d with
  | zero =>
    have hnil : level = [] :=
      List.eq_nil_iff_forall_not_mem.2 fun t ht => absurd (h t ht) (by omega)
    simp [hnil, visit]
  | succ m ih =>
    have hbelow : ∀ c ∈ level.flatMap children, c.height < m := by
      intro c hc
      obtain ⟨t, ht, hc⟩ := List.mem_flatMap.1 hc
      have := h t ht
      have := height_lt_of_mem hc
      omega
    have hvisit := visit_level level.reverse d []
    rw [List.append_nil, List.nil_append, flatMap_queued, ih _ (d + 1) hbelow] at hvisit
    rw [hvisit, List.range_succ_eq_map, List.flatMap_cons, List.flatMap_map]
    simp [atDepth, List.flatMap_assoc, Nat.add_assoc, Nat.add_comm 1]

/-- The walk visits one level after the other, each from right to left. -/
theorem levelOrder_eq (t : Tree) : t.levelOrder =
    (List.range (t.height + 1)).flatMap fun d => (t.atDepth d).reverse.map (·, d) := by
  have hforest := visit_forest [t] 0 (m := t.height + 1) (by simp)
  simpa [levelOrder] using hforest

theorem visit_perm (queue : List (Tree × Nat)) :
    ((visit queue).map (·.1)).Perm (queue.flatMap (·.1.preorder)) := by
  induction queue using visit.induct with
  | case1 => simp [visit]
  | case2 t depth queue ih =>
    have hqueued :
        ((t.queued depth).flatMap (·.1.preorder)).Perm (t.children.flatMap preorder) := by
      rw [queued, List.flatMap_map]
      exact (List.reverse_perm _).flatMap_right _
    rw [List.flatMap_append] at ih
    rw [visit, List.map_cons, List.flatMap_cons, preorder_eq]
    exact ((ih.trans (hqueued.append_left _)).trans List.perm_append_comm).cons t

/-- The walk comes to every node once. -/
theorem levelOrder_perm (t : Tree) : (t.levelOrder.map (·.1)).Perm t.preorder := by
  simpa [levelOrder] using visit_perm [(t, 0)]

theorem length_levelOrder (t : Tree) : t.levelOrder.length = t.size := by
  have hlength := t.levelOrder_perm.length_eq
  rwa [List.length_map, length_preorder] at hlength

/-- The last level is as deep as the tree is high, and it has a node. -/
theorem getLast?_levelOrder (t : Tree) :
    (t.levelOrder.map (·.2)).getLast? = some t.height := by
  obtain ⟨n, hn, -⟩ := exists_atDepth (t := t) (Nat.le_refl _)
  have hlast : (t.atDepth t.height).length ≠ 0 := fun h =>
    List.not_mem_nil (List.length_eq_zero_iff.1 h ▸ hn)
  rw [levelOrder_eq, List.range_succ, List.flatMap_append, List.map_append]
  simp [Function.comp_def, List.map_const', List.getLast?_append, List.getLast?_replicate, hlast]

/-! ### Places in turn -/

/-- The places of the nodes at a depth, from left to right. -/
def placesAt (t : Tree) (d : Nat) : List Place :=
  (Place.atDepth d).filter fun p => (t.subtree? p).isSome

theorem mem_placesAt : p ∈ t.placesAt d ↔ p.length = d ∧ (t.subtree? p).isSome := by
  rw [placesAt, List.mem_filter, Place.mem_atDepth]

theorem filterMap_placesAt (t : Tree) (d : Nat) :
    (t.placesAt d).filterMap t.subtree? = t.atDepth d := by
  rw [atDepth_eq, placesAt, List.filterMap_filter]
  congr 1
  funext p
  cases t.subtree? p <;> rfl

/-- The nodes that are visited at a depth are those at its places. -/
theorem map_reverse_atDepth (t : Tree) (d : Nat) : (t.atDepth d).reverse.map (·, d) =
    (t.placesAt d).reverse.filterMap fun p => (t.subtree? p).map (·, p.length) := by
  have hlength : ∀ p ∈ (t.placesAt d).reverse,
      (t.subtree? p).map (·, p.length) = (t.subtree? p).map (·, d) := fun p hp => by
    rw [(mem_placesAt.1 (List.mem_reverse.1 hp)).1]
  rw [List.filterMap_congr hlength, ← List.map_filterMap, List.filterMap_reverse,
    filterMap_placesAt]

/-- The places that the walk comes to. -/
def walk (t : Tree) : List Place :=
  (List.range (t.height + 1)).flatMap fun d => (t.placesAt d).reverse

theorem levelOrder_eq_walk (t : Tree) :
    t.levelOrder = t.walk.filterMap fun p => (t.subtree? p).map (·, p.length) := by
  rw [levelOrder_eq, walk, List.filterMap_flatMap]
  exact List.flatMap_congr fun d _ => t.map_reverse_atDepth d

theorem mem_walk : p ∈ t.walk ↔ (t.subtree? p).isSome := by
  simp only [walk, List.mem_flatMap, List.mem_range, List.mem_reverse, mem_placesAt]
  refine ⟨fun ⟨d, _, _, hp⟩ => hp, fun hp => ⟨p.length, ?_, rfl, hp⟩⟩
  obtain ⟨n, hn⟩ := Option.isSome_iff_exists.1 hp
  have hle := height_add_length_le hn
  omega

theorem pairwise_walk (t : Tree) : t.walk.Pairwise Place.Sooner := by
  refine List.pairwise_flatMap.2 ⟨fun d _ => ?_, List.pairwise_lt_range.imp ?_⟩
  · have hleft : (t.placesAt d).Pairwise Place.LeftOf := (Place.pairwise_atDepth d).filter _
    refine List.pairwise_reverse.2 (hleft.imp_of_mem fun hp hq h => .inr ⟨?_, h⟩)
    rw [(mem_placesAt.1 hp).1, (mem_placesAt.1 hq).1]
  · intro d e hlt p hp q hq
    rw [Place.Sooner, (mem_placesAt.1 (List.mem_reverse.1 hp)).1,
      (mem_placesAt.1 (List.mem_reverse.1 hq)).1]
    exact .inl hlt

/-- The calls of a walk by level, with the places where they are made. -/
structure ByLevel (t : Tree) (calls : List (Tree × Nat)) (places : List Place) : Prop where
  /-- A call is for the node at its place, and the length of the path there is passed as depth. -/
  calls_eq : calls = places.filterMap fun p => (t.subtree? p).map (·, p.length)
  /-- All nodes are visited, and nothing else. -/
  mem_iff : ∀ p, p ∈ places ↔ (t.subtree? p).isSome
  /-- Each is visited once. -/
  nodup : places.Nodup
  /-- The levels come in turn, each from right to left. -/
  ordered : places.Pairwise Place.Sooner

theorem byLevel_levelOrder (t : Tree) : t.ByLevel t.levelOrder t.walk where
  calls_eq := t.levelOrder_eq_walk
  mem_iff _ := mem_walk
  nodup := t.pairwise_walk.imp Place.Sooner.ne
  ordered := t.pairwise_walk

/-- The walk goes through the levels of a tree in turn, each from right to left, and visits every
node once at its depth. There are as many calls as nodes, and the last of them is as deep as the
tree is high. -/
theorem levelOrder_by_level (t : Tree) :
    (∃ places, t.ByLevel t.levelOrder places) ∧ t.levelOrder.length = t.size ∧
      (t.levelOrder.map (·.2)).getLast? = some (t.measure ∅).1 := by
  refine ⟨⟨_, t.byLevel_levelOrder⟩, t.length_levelOrder, ?_⟩
  rw [measure_fst, getLast?_levelOrder]

end InfixTree.Tree
