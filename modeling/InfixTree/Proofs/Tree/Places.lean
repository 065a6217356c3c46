import InfixTree.Tree.Height
import Mathlib.Data.List.Basic
import Mathlib.Order.Bounds.Defs

/-! Places in trees. A place is the path that leads to it from the root, so nodes that are alike are
told apart by where they stand. The height of a tree is the length of the longest path in it that
leads to a node, and down to that length there are nodes at every depth. -/
namespace InfixTree

/-- The path from the root to a node. -/
abbrev Place := List Side

namespace Place

/-- All places at a depth from left to right, whether or not a tree has nodes there. -/
def atDepth : Nat → List Place
  | 0 => [[]]
  | d + 1 => (atDepth d).map (.left :: ·) ++ (atDepth d).map (.right :: ·)

/-- The paths part, and the first goes to the left. -/
def LeftOf (p q : Place) : Prop :=
  ∃ way p' q', p = way ++ Side.left :: p' ∧ q = way ++ Side.right :: q'

/-- The first is higher up, or at the same depth and to the right. -/
def Sooner (p q : Place) : Prop := p.length < q.length ∨ p.length = q.length ∧ LeftOf q p

/-- The first is above the second or goes to the left where they part. -/
def Before (p q : Place) : Prop := p <+: q ∧ p ≠ q ∨ LeftOf p q

variable {p q : Place} {d : Nat}

theorem mem_atDepth : p ∈ atDepth d ↔ p.length = d := by
  induction d generalizing p with
  | zero => simp [atDepth]
  | succ d ih =>
    rcases p with _ | ⟨_ | _, p⟩ <;> simp [atDepth, ih]

theorem LeftOf.cons (h : LeftOf p q) (s : Side) : LeftOf (s :: p) (s :: q) := by
  obtain ⟨way, p', q', rfl, rfl⟩ := h
  exact ⟨s :: way, p', q', rfl, rfl⟩

theorem LeftOf.ne (h : LeftOf p q) : p ≠ q := by
  obtain ⟨way, p', q', rfl, rfl⟩ := h
  simp

theorem Sooner.ne (h : Sooner p q) : p ≠ q := by
  rintro rfl
  rcases h with h | ⟨-, h⟩
  · exact Nat.lt_irrefl _ h
  · exact h.ne rfl

theorem Sooner.length_le (h : Sooner p q) : p.length ≤ q.length :=
  h.elim Nat.le_of_lt fun h => Nat.le_of_eq h.1

theorem pairwise_atDepth (d : Nat) : (atDepth d).Pairwise LeftOf := by
  induction d with
  | zero => exact List.pairwise_singleton _ _
  | succ d ih =>
    refine List.pairwise_append.2 ⟨?_, ?_, ?_⟩
    · exact ih.map _ fun p q h => h.cons .left
    · exact ih.map _ fun p q h => h.cons .right
    · intro p hp q hq
      obtain ⟨p', -, rfl⟩ := List.mem_map.1 hp
      obtain ⟨q', -, rfl⟩ := List.mem_map.1 hq
      exact ⟨[], p', q', rfl, rfl⟩

theorem Before.cons (h : Before p q) (s : Side) : Before (s :: p) (s :: q) :=
  h.imp (fun h => ⟨List.cons_prefix_cons.2 ⟨rfl, h.1⟩, fun heq => h.2 (List.cons.inj heq).2⟩)
    fun h => h.cons s

theorem nil_before (s : Side) (p : Place) : Before [] (s :: p) := .inl ⟨List.nil_prefix, nofun⟩

theorem left_before_right (p q : Place) : Before (.left :: p) (.right :: q) :=
  .inr ⟨[], p, q, rfl, rfl⟩

end Place

namespace Tree

variable {t n c : Tree} {s : Side} {p q : Place} {d : Nat}

/-! ### Children -/

theorem mem_children : c ∈ t.children ↔ ∃ s, t.child? s = some c := by
  constructor
  · intro h
    cases t with
    | leaf => cases h
    | application f a => exact ⟨.left, by simpa [children, child?, eq_comm] using h⟩
    | operation o l r =>
      rcases List.mem_pair.1 h with rfl | rfl
      · exact ⟨.left, rfl⟩
      · exact ⟨.right, rfl⟩
  · rintro ⟨s, h⟩
    cases t <;> cases s <;> simp_all [children, child?]

theorem isLeaf_iff : t.isLeaf ↔ t.height = 0 := by
  cases t <;> simp [isLeaf, children, height]

theorem height_lt_of_mem (h : c ∈ t.children) : c.height < t.height := by
  cases t <;> simp only [children, List.mem_cons, List.not_mem_nil, or_false] at h <;>
    simp only [height]
  · subst h; omega
  · rcases h with rfl | rfl <;> omega

/-- A child that is as high as any. -/
theorem exists_child (h : t.height ≠ 0) : ∃ c ∈ t.children, c.height + 1 = t.height := by
  cases t with
  | leaf => exact absurd rfl h
  | application f a => exact ⟨a, by simp [children], rfl⟩
  | operation o l r =>
    rcases Nat.le_total r.height l.height with hle | hle
    · exact ⟨l, by simp [children], by simp [height, Nat.max_eq_left hle]⟩
    · exact ⟨r, by simp [children], by simp [height, Nat.max_eq_right hle]⟩

theorem preorder_eq (t : Tree) : t.preorder = t :: t.children.flatMap preorder := by
  cases t <;> simp [preorder, children]

theorem self_mem_preorder (t : Tree) : t ∈ t.preorder := by
  rw [preorder_eq]
  exact List.mem_cons_self

theorem length_preorder (t : Tree) : t.preorder.length = t.size := by
  induction t with
  | leaf => rfl
  | application f a ih => rw [preorder, List.length_cons, ih, size]
  | operation o l r ihl ihr =>
    rw [preorder, List.length_cons, List.length_append, ihl, ihr, size]

/-! ### Nodes at places -/

@[simp] theorem subtree?_nil (t : Tree) : t.subtree? [] = some t := rfl

theorem subtree?_cons (t : Tree) (s : Side) (p : Place) :
    t.subtree? (s :: p) = (t.child? s).bind (·.subtree? p) := rfl

theorem subtree?_append (t : Tree) (p q : Place) :
    t.subtree? (p ++ q) = (t.subtree? p).bind (·.subtree? q) := List.foldlM_append

theorem subtree?_concat (t : Tree) (p : Place) (s : Side) :
    t.subtree? (p ++ [s]) = (t.subtree? p).bind (·.child? s) := by
  rw [subtree?_append]
  exact Option.bind_congr fun n _ => Option.bind_fun_some _

/-- Under a place are the children of its node. -/
theorem subtree?_concat_eq_some :
    t.subtree? (p ++ [s]) = some c ↔ ∃ n, t.subtree? p = some n ∧ n.child? s = some c := by
  rw [subtree?_concat, Option.bind_eq_some_iff]

theorem mem_preorder : n ∈ t.preorder ↔ ∃ p, t.subtree? p = some n := by
  constructor
  · intro h
    induction t with
    | leaf => exact ⟨[], by rw [List.mem_singleton.1 h, subtree?_nil]⟩
    | application f a ih =>
      rcases List.mem_cons.1 h with rfl | h
      · exact ⟨[], rfl⟩
      · obtain ⟨p, hp⟩ := ih h
        exact ⟨.left :: p, hp⟩
    | operation o l r ihl ihr =>
      rcases List.mem_cons.1 h with rfl | h
      · exact ⟨[], rfl⟩
      · rcases List.mem_append.1 h with h | h
        · obtain ⟨p, hp⟩ := ihl h
          exact ⟨.left :: p, hp⟩
        · obtain ⟨p, hp⟩ := ihr h
          exact ⟨.right :: p, hp⟩
  · rintro ⟨p, hp⟩
    induction p generalizing t with
    | nil =>
      obtain rfl := Option.some.inj hp
      exact self_mem_preorder t
    | cons s p ih =>
      obtain ⟨c, hc, hn⟩ := Option.bind_eq_some_iff.1 hp
      rw [preorder_eq]
      exact List.mem_cons_of_mem _ (List.mem_flatMap.2 ⟨c, mem_children.2 ⟨s, hc⟩, ih hn⟩)

/-- The nodes below a node are nodes of the tree. -/
theorem preorder_subset (h : n ∈ t.preorder) : n.preorder ⊆ t.preorder := by
  intro m hm
  obtain ⟨p, hp⟩ := mem_preorder.1 h
  obtain ⟨q, hq⟩ := mem_preorder.1 hm
  exact mem_preorder.2 ⟨p ++ q, by rw [subtree?_append, hp, Option.bind_some, hq]⟩

theorem mem_preorder_of_mem_children (hn : n ∈ t.preorder) (hc : c ∈ n.children) :
    c ∈ t.preorder := by
  refine preorder_subset hn ?_
  rw [preorder_eq]
  exact List.mem_cons_of_mem _ (List.mem_flatMap.2 ⟨c, hc, c.self_mem_preorder⟩)

/-- The deeper a node the less high it is. -/
theorem height_add_length_le (h : t.subtree? p = some n) : n.height + p.length ≤ t.height := by
  induction p generalizing t with
  | nil =>
    obtain rfl := Option.some.inj h
    exact Nat.le_refl _
  | cons s p ih =>
    obtain ⟨c, hc, hn⟩ := Option.bind_eq_some_iff.1 h
    have hle := ih hn
    have hlt := height_lt_of_mem (mem_children.2 ⟨s, hc⟩)
    rw [List.length_cons]
    omega

/-- On the way to a deepest leaf there is a node at every depth. -/
theorem exists_subtree? (h : d ≤ t.height) :
    ∃ p n, t.subtree? p = some n ∧ p.length = d ∧ n.height + d = t.height := by
  induction d generalizing t with
  | zero => exact ⟨[], t, rfl, rfl, rfl⟩
  | succ d ih =>
    obtain ⟨c, hc, hheight⟩ := exists_child (t := t) (by omega)
    obtain ⟨s, hs⟩ := mem_children.1 hc
    obtain ⟨p, n, hp, hlength, hd⟩ := ih (t := c) (by omega)
    refine ⟨s :: p, n, ?_, by rw [List.length_cons, hlength], by omega⟩
    rw [subtree?_cons, hs]
    exact hp

/-- The depths at which there are nodes. -/
def depths (t : Tree) : Set Nat := {d | ∃ p, (t.subtree? p).isSome ∧ p.length = d}

theorem isGreatest_height (t : Tree) : IsGreatest t.depths t.height := by
  constructor
  · obtain ⟨p, n, hp, hlength, -⟩ := exists_subtree? (t := t) (Nat.le_refl _)
    exact ⟨p, by simp [hp], hlength⟩
  · rintro d ⟨p, hp, rfl⟩
    obtain ⟨n, hn⟩ := Option.isSome_iff_exists.1 hp
    have hle := height_add_length_le hn
    omega

/-! ### Places in preorder -/

/-- The places of the nodes, each before those below it. -/
def places : Tree → List Place
  | leaf _ => [[]]
  | application _ a => [] :: a.places.map (.left :: ·)
  | operation _ l r => [] :: (l.places.map (.left :: ·) ++ r.places.map (.right :: ·))

/-- The places of all nodes, in preorder. -/
structure Preordered (t : Tree) (ps : List Place) : Prop where
  mem : ∀ p, p ∈ ps ↔ (t.subtree? p).isSome
  pairwise : ps.Pairwise Place.Before
  nodes : ps.map t.subtree? = t.preorder.map some

theorem mem_places : p ∈ t.places ↔ (t.subtree? p).isSome := by
  induction t generalizing p with
  | leaf t => rcases p with _ | ⟨_ | _, p⟩ <;> simp [places, subtree?_cons, child?]
  | application t a ih => rcases p with _ | ⟨_ | _, p⟩ <;> simp [places, subtree?_cons, child?, ih]
  | operation t l r ihl ihr =>
    rcases p with _ | ⟨_ | _, p⟩ <;> simp [places, subtree?_cons, child?, ihl, ihr]

theorem pairwise_places (t : Tree) : t.places.Pairwise Place.Before := by
  have hmap : ∀ (ps : List Place) (s : Side), ps.Pairwise Place.Before →
      (ps.map (s :: ·)).Pairwise Place.Before :=
    fun ps s h => h.map _ fun p q hpq => hpq.cons s
  induction t with
  | leaf t => exact List.pairwise_singleton _ _
  | application t a ih =>
    refine List.pairwise_cons.2 ⟨List.forall_mem_map.2 fun p _ => ?_, hmap _ _ ih⟩
    exact Place.nil_before .left p
  | operation t l r ihl ihr =>
    refine List.pairwise_cons.2 ⟨List.forall_mem_append.2 ⟨?_, ?_⟩,
      List.pairwise_append.2 ⟨hmap _ _ ihl, hmap _ _ ihr, ?_⟩⟩
    · exact List.forall_mem_map.2 fun p _ => Place.nil_before .left p
    · exact List.forall_mem_map.2 fun p _ => Place.nil_before .right p
    · refine List.forall_mem_map.2 fun p _ => List.forall_mem_map.2 fun q _ => ?_
      exact Place.left_before_right p q

theorem map_subtree?_places (t : Tree) : t.places.map t.subtree? = t.preorder.map some := by
  induction t with
  | leaf t => rfl
  | application t a ih =>
    simp only [places, preorder, List.map_cons, List.map_map, ← ih]
    rfl
  | operation t l r ihl ihr =>
    simp only [places, preorder, List.map_cons, List.map_append, List.map_map, ← ihl, ← ihr]
    rfl

theorem preordered_places (t : Tree) : t.Preordered t.places :=
  ⟨fun _ => mem_places, t.pairwise_places, t.map_subtree?_places⟩

end Tree

end InfixTree
