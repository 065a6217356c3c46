import InfixTree.Proofs.Tree.Places
import InfixTree.Proofs.Tree.Postorder
import InfixTree.Tree.Height
import Mathlib.Data.List.Nodup

/-! Heights by id. A node is entered after everything below it and to the left of it, so the entry
that an id has in the end is that of the last node with the id in postorder, whatever was entered
before. Where ids are distinct every node has its own height. -/
namespace InfixTree.Tree

variable {t n : Tree} {hs : Heights} {i : Nat}

/-- The last of the nodes with an id, in the order in which their heights are entered. -/
def lastWith (i : Nat) (t : Tree) : Option Tree := t.postorder.reverse.find? (·.id = i)

theorem mem_of_lastWith (h : t.lastWith i = some n) : n ∈ t.preorder ∧ n.id = i := by
  refine ⟨t.postorder_perm.mem_iff.1 (List.mem_reverse.1 (List.mem_of_find?_eq_some h)), ?_⟩
  simpa using List.find?_some h

theorem exists_lastWith (h : n ∈ t.preorder) : ∃ m, t.lastWith n.id = some m := by
  have hmem : n ∈ t.postorder.reverse := List.mem_reverse.2 (t.postorder_perm.mem_iff.2 h)
  exact Option.isSome_iff_exists.1 (List.find?_isSome.2 ⟨n, hmem, by simp⟩)

/-- The root comes last of all. -/
theorem lastWith_eq (t : Tree) (i : Nat) : t.lastWith i = if t.id = i then some t else
    (t.children.flatMap postorder).reverse.find? (·.id = i) := by
  rw [lastWith, postorder_eq, List.reverse_append]
  by_cases h : t.id = i <;> simp [h]

/-- The children enter theirs in turn, and then the root its own. -/
theorem measure_snd (t : Tree) (hs : Heights) : (t.measure hs).2 =
    (t.children.foldl (fun hs c => (c.measure hs).2) hs).insert t.id t.height := by
  cases t with
  | leaf => rfl
  | application | operation =>
    simp only [measure, measure_fst, height]
    rfl

theorem getElem?_measure_eq (t : Tree) (hs : Heights) (i : Nat) : (t.measure hs).2[i]? =
    if t.id = i then some t.height
    else (t.children.foldl (fun hs c => (c.measure hs).2) hs)[i]? := by
  rw [measure_snd]
  simp [Std.TreeMap.getElem?_insert]

/-- A tree enters the heights of the last nodes with their ids and leaves the other entries. -/
theorem getElem?_measure (t : Tree) (hs : Heights) (i : Nat) :
    (t.measure hs).2[i]? = ((t.lastWith i).map height).or hs[i]? := by
  induction t generalizing hs with
  | leaf t =>
    rw [getElem?_measure_eq, lastWith_eq]
    split_ifs <;> simp [children]
  | application f a ih =>
    rw [getElem?_measure_eq, lastWith_eq]
    split_ifs <;> simp [children, ih, lastWith]
  | operation o l r ihl ihr =>
    rw [getElem?_measure_eq, lastWith_eq]
    split_ifs <;> simp [children, ihl, ihr, lastWith, List.find?_append, Option.map_or,
      Option.or_assoc]

theorem getElem?_heights (t : Tree) (i : Nat) : t.heights[i]? = (t.lastWith i).map height := by
  rw [heights, getElem?_measure]
  simp

/-- Where ids are distinct, a node has its own height under its id. -/
theorem getElem?_heights_of_mem (hids : (t.preorder.map id).Nodup) (hn : n ∈ t.preorder) :
    t.heights[n.id]? = some n.height := by
  obtain ⟨m, hm⟩ := exists_lastWith hn
  obtain ⟨hmem, hid⟩ := mem_of_lastWith hm
  obtain rfl := List.inj_on_of_nodup_map hids hmem hn hid
  rw [getElem?_heights, hm, Option.map_some]

/-- An id that no node has gets no entry. -/
theorem getElem?_heights_eq_none (h : ∀ n ∈ t.preorder, n.id ≠ i) : t.heights[i]? = none := by
  rw [getElem?_heights, Option.map_eq_none_iff, Option.eq_none_iff_forall_ne_some]
  intro n hn
  obtain ⟨hmem, hid⟩ := mem_of_lastWith hn
  exact h n hmem hid

/-- No node is higher than the root. -/
theorem height_le_of_mem (h : n ∈ t.preorder) : n.height ≤ t.height := by
  obtain ⟨p, hp⟩ := mem_preorder.1 h
  exact Nat.le_of_add_right_le (height_add_length_le hp)

/-! ### Entries -/

theorem mem_heights : i ∈ t.heights ↔ ∃ n ∈ t.preorder, n.id = i := by
  rw [Std.TreeMap.mem_iff_isSome_getElem?, getElem?_heights, Option.isSome_map,
    Option.isSome_iff_exists]
  constructor
  · rintro ⟨n, hn⟩
    exact ⟨n, mem_of_lastWith hn⟩
  · rintro ⟨n, hn, rfl⟩
    exact exists_lastWith hn

theorem lastWith_of_postorder {before after : List Tree} (h : t.postorder = before ++ n :: after)
    (hafter : ∀ m ∈ after, m.id ≠ n.id) : t.lastWith n.id = some n := by
  rw [lastWith, List.find?_eq_some_iff_append, h, List.reverse_append, List.reverse_cons]
  exact ⟨by simp, after.reverse, before.reverse, by simp, by simpa using hafter⟩

/-- The heights of a tree that are entered by id, of which `top` is the largest. -/
structure MeasuredBy (t : Tree) (top : Nat) (hs : Heights) : Prop where
  /-- The ids of the nodes have entries, and no others. -/
  mem_iff : ∀ i, i ∈ hs ↔ ∃ n ∈ t.preorder, n.id = i
  /-- The entry of an id is the length of the longest path down from the last node that has it. -/
  last : ∀ before n after, t.postorder = before ++ n :: after → (∀ m ∈ after, m.id ≠ n.id) →
    ∃ k, hs[n.id]? = some k ∧ IsGreatest n.depths k
  /-- That of the root is the largest. -/
  root : hs[t.id]? = some top
  le_top : ∀ i k : Nat, hs[i]? = some k → k ≤ top

/-- Every node has an entry of its own. -/
structure MeasuredEach (t : Tree) (hs : Heights) : Prop where
  /-- There are as many entries as nodes. -/
  keys_perm : hs.keys.Perm (t.preorder.map id)
  leaf : ∀ n ∈ t.preorder, n.isLeaf → hs[n.id]? = some 0
  /-- A node with operands has one more than the largest of their entries. -/
  above : ∀ n ∈ t.preorder, n.isLeaf = false → ∃ (ks : List Nat) (k : Nat),
    n.children.map (hs[·.id]?) = ks.map some ∧ ks.max? = some k ∧ hs[n.id]? = some (k + 1)

theorem measuredBy_heights (t : Tree) : t.MeasuredBy t.height t.heights where
  mem_iff i := mem_heights
  last before n after h hafter := by
    refine ⟨n.height, ?_, n.isGreatest_height⟩
    rw [getElem?_heights, lastWith_of_postorder h hafter, Option.map_some]
  root := by rw [getElem?_heights, lastWith_eq, if_pos rfl, Option.map_some]
  le_top i k h := by
    rw [getElem?_heights, Option.map_eq_some_iff] at h
    obtain ⟨n, hn, rfl⟩ := h
    exact height_le_of_mem (mem_of_lastWith hn).1

/-- The heights of the children make the height of a node. -/
theorem exists_max?_height (h : n.isLeaf = false) :
    ∃ k, (n.children.map height).max? = some k ∧ n.height = k + 1 := by
  cases n with
  | leaf => cases h
  | application f a => exact ⟨a.height, rfl, rfl⟩
  | operation o l r => exact ⟨max l.height r.height, rfl, rfl⟩

theorem measuredEach_heights (hids : (t.preorder.map id).Nodup) : t.MeasuredEach t.heights where
  keys_perm := by
    refine (List.perm_ext_iff_of_nodup Std.TreeMap.nodup_keys hids).2 fun i => ?_
    rw [Std.TreeMap.mem_keys, mem_heights, List.mem_map]
  leaf n hn hleaf := by
    rw [getElem?_heights_of_mem hids hn, isLeaf_iff.1 hleaf]
  above n hn hleaf := by
    obtain ⟨k, hk, hheight⟩ := exists_max?_height hleaf
    refine ⟨n.children.map height, k, ?_, hk, ?_⟩
    · rw [List.map_map]
      exact List.map_congr_left fun c hc =>
        getElem?_heights_of_mem hids (mem_preorder_of_mem_children hn hc)
    · rw [getElem?_heights_of_mem hids hn, hheight]

/-- Whether or not ids repeat, every id that occurs has an entry, and it is that of the last node
with the id in postorder; where ids are distinct, every node has an entry of its own. -/
theorem measure_by_id (t : Tree) : t.MeasuredBy (t.measure ∅).1 (t.measure ∅).2 ∧
    ((t.preorder.map id).Nodup → t.MeasuredEach (t.measure ∅).2) := by
  rw [measure_fst]
  exact ⟨t.measuredBy_heights, measuredEach_heights⟩

/-- In `f(x)+y` the leaf `y` comes after the call, so it leaves its height under an id that both
have, and the sum leaves its own under that of `x`. -/
theorem measure_by_id_repeated :
    let tree (plus f x y : Nat) : Tree := .operation ⟨.ofOperator .add, plus⟩
      (.application ⟨.ofName ['f'], f⟩ (.leaf ⟨.ofLetter 'x', x⟩)) (.leaf ⟨.ofLetter 'y', y⟩)
    let t := tree 1 2 1 2
    let u := tree 5 1 3 6
    t.MeasuredBy 2 (t.measure ∅).2 ∧ (t.measure ∅).2[1]? = some 2 ∧ (t.measure ∅).2[2]? = some 0 ∧
      (u.preorder.map id).Nodup ∧ u.MeasuredEach (u.measure ∅).2 := by
  intro tree t u
  have htop : (t.measure ∅).1 = 2 := measure_fst t ∅
  have hlast : (t.measure ∅).2[2]? = some 0 := getElem?_heights t 2
  have hids : (u.preorder.map id).Nodup := by decide
  have ht : t.MeasuredBy 2 (t.measure ∅).2 := htop ▸ (measure_by_id t).1
  exact ⟨ht, ht.root, hlast, hids, (measure_by_id u).2 hids⟩

end InfixTree.Tree
