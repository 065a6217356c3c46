import InfixTree.Tree.Basic
import Mathlib.Data.List.Basic

/-! Nodes in postorder: each after those below it, and those on the left before those on the
right. What hangs from a node stands in one piece right before it. -/
namespace InfixTree.Tree

/-- All nodes, each after its children. -/
def postorder : Tree → List Tree
  | leaf t => [leaf t]
  | application f a => a.postorder ++ [application f a]
  | operation t l r => l.postorder ++ r.postorder ++ [operation t l r]

variable {t n : Tree} {before after : List Tree}

theorem postorder_eq (t : Tree) : t.postorder = t.children.flatMap postorder ++ [t] := by
  cases t <;> simp [postorder, children]

theorem postorder_perm (t : Tree) : t.postorder.Perm t.preorder := by
  induction t with
  | leaf t => exact .refl _
  | application f a ih => exact (List.perm_append_singleton _ _).trans (ih.cons _)
  | operation t l r ihl ihr =>
    exact (List.perm_append_singleton _ _).trans ((ihl.append ihr).cons _)

/-- In the list everything that hangs from a node stands right before the node. -/
def Settled (ns : List Tree) : Prop :=
  ∀ before n after, ns = before ++ n :: after → n.children.flatMap postorder <:+ before

theorem Settled.append {ns ms : List Tree} (hns : Settled ns) (hms : Settled ms) :
    Settled (ns ++ ms) := by
  intro before n after h
  rcases List.append_eq_append_iff.1 h with ⟨rest, rfl, hrest⟩ | ⟨rest, hns', hrest⟩
  · exact (hms rest n after hrest).trans (List.suffix_append ns rest)
  · cases rest with
    | nil =>
      rw [List.append_nil] at hns'
      have hnone : n.children.flatMap postorder <:+ [] := hms [] n after hrest.symm
      rw [List.suffix_nil.1 hnone]
      exact List.nil_suffix
    | cons m rest =>
      obtain ⟨rfl, -⟩ := List.cons.inj hrest
      exact hns before n rest hns'

theorem Settled.concat {ns : List Tree} (hns : Settled ns) (h : n.children.flatMap postorder = ns) :
    Settled (ns ++ [n]) := by
  intro before m after hm
  rcases List.eq_nil_or_concat' after with rfl | ⟨after, last, rfl⟩
  · obtain ⟨rfl, hlast⟩ := List.append_inj' hm rfl
    obtain rfl := List.singleton_injective hlast
    exact h ▸ List.suffix_refl _
  · rw [← List.cons_append, ← List.append_assoc] at hm
    exact hns before m after (List.append_inj_left' hm rfl)

theorem settled_postorder (t : Tree) : Settled t.postorder := by
  have hnil : Settled [] := fun before n after h => absurd h (by simp)
  induction t with
  | leaf t => exact hnil.concat rfl
  | application f a ih => exact ih.concat (by simp [children])
  | operation t l r ihl ihr => exact (ihl.append ihr).concat (by simp [children])

/-- The same holds of the nodes of some sort alone. -/
theorem suffix_of_filter_postorder {p : Tree → Bool}
    (h : t.postorder.filter p = before ++ n :: after) :
    (n.children.flatMap fun c => c.postorder.filter p) <:+ before := by
  obtain ⟨ns, ms, hsplit, rfl, hms⟩ := List.filter_eq_append_iff.1 h
  obtain ⟨skipped, rest, rfl, hskipped, -, -⟩ := List.filter_eq_cons_iff.1 hms
  rw [← List.append_assoc] at hsplit
  have hsuffix := (settled_postorder t _ n rest hsplit).filter p
  have hnone : skipped.filter p = [] := List.filter_eq_nil_iff.2 hskipped
  rwa [List.filter_flatMap, List.filter_append, hnone, List.append_nil] at hsuffix

end InfixTree.Tree
