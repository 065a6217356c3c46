import InfixTree.Proofs.Grammar
import Mathlib.Data.List.Infix

/-! Which parentheses of a list belong together. The depth of a list is the number of groups
that it opens less the number that it closes. A list is balanced if it closes all groups it
opens and no other ones; then every parenthesis that opens has one that closes, with a
balanced list between the two. Phrases of the grammar are balanced. In a list that opens more
groups than it closes, one is the innermost that stays open. -/
namespace InfixTree

namespace Token

/-- Groups opened less groups closed. -/
def depth (ts : List Token) : Int :=
  ts.countP (·.kind = .leftParenthesis) - ts.countP (·.kind = .rightParenthesis)

/-- No group is closed before it has been opened. -/
def ClosesOpened (ts : List Token) : Prop := ∀ us, us <+: ts → 0 ≤ depth us

instance (ts : List Token) : Decidable (ClosesOpened ts) :=
  decidable_of_iff (∀ us ∈ ts.inits, 0 ≤ depth us) (by simp [ClosesOpened, List.mem_inits])

variable {ts us : List Token} {t p q : Token}

theorem depth_append : depth (ts ++ us) = depth ts + depth us := by
  simp only [depth, List.countP_append]
  omega

theorem depth_cons : depth (t :: ts) = depth [t] + depth ts := by
  rw [← depth_append, List.singleton_append]

theorem depth_left (hp : p.kind = .leftParenthesis) : depth [p] = 1 := by simp [depth, hp]

theorem depth_right (hq : q.kind = .rightParenthesis) : depth [q] = -1 := by simp [depth, hq]

theorem depth_other (hl : t.kind ≠ .leftParenthesis) (hr : t.kind ≠ .rightParenthesis) :
    depth [t] = 0 := by
  simp [depth, hl, hr]

/-- Only a closing parenthesis takes the depth down, and by one. -/
theorem depth_singleton (t : Token) :
    t.kind ≠ .rightParenthesis ∧ 0 ≤ depth [t] ∨ t.kind = .rightParenthesis ∧ depth [t] = -1 := by
  by_cases hr : t.kind = .rightParenthesis
  · exact .inr ⟨hr, depth_right hr⟩
  · by_cases hl : t.kind = .leftParenthesis
    · exact .inl ⟨hr, by rw [depth_left hl]; decide⟩
    · exact .inl ⟨hr, Int.le_of_eq (depth_other hl hr).symm⟩

theorem closesOpened_nil : ClosesOpened [] := fun us hus => by rw [List.prefix_nil.1 hus]; decide

theorem ClosesOpened.of_prefix (h : ClosesOpened ts) (hus : us <+: ts) : ClosesOpened us :=
  fun vs hvs => h vs (hvs.trans hus)

theorem closesOpened_concat :
    ClosesOpened (ts ++ [t]) ↔ ClosesOpened ts ∧ 0 ≤ depth (ts ++ [t]) := by
  constructor
  · intro h
    exact ⟨h.of_prefix (List.prefix_append _ _), h _ (List.prefix_refl _)⟩
  · rintro ⟨h, ht⟩ us hus
    rcases List.prefix_concat_iff.1 hus with rfl | hus
    · exact ht
    · exact h us hus

end Token

open Token

/-- The list closes the groups that it opens and no other ones. -/
structure Balanced (ts : List Token) : Prop where
  closesOpened : ClosesOpened ts
  depth_eq : depth ts = 0

instance (ts : List Token) : Decidable (Balanced ts) :=
  decidable_of_iff (ClosesOpened ts ∧ depth ts = 0) ⟨fun h => ⟨h.1, h.2⟩, fun h => ⟨h.1, h.2⟩⟩

/-- A pair of parentheses that belong together, with what stands before, in and after it. -/
structure Pair (ts before : List Token) (p : Token) (inner : List Token) (q : Token)
    (after : List Token) : Prop where
  eq : ts = before ++ p :: (inner ++ q :: after)
  left : p.kind = .leftParenthesis
  right : q.kind = .rightParenthesis
  balanced : Balanced inner

/-- The innermost of the groups that a list leaves open, with what stands before its parenthesis
and what has been read in it. -/
structure Unclosed (ts before : List Token) (p : Token) (inner : List Token) : Prop where
  eq : ts = before ++ p :: inner
  left : p.kind = .leftParenthesis
  balanced : Balanced inner

variable {l r ts before rest inner : List Token} {p q t : Token}

/-- A list that closes a group it did not open does so first after a balanced list. -/
theorem exists_closing (h : ¬ ClosesOpened ts) : ∃ inner q after,
    ts = inner ++ q :: after ∧ q.kind = .rightParenthesis ∧ Balanced inner := by
  induction ts using List.reverseRecOn with
  | nil => exact absurd closesOpened_nil h
  | append_singleton ts t ih =>
    by_cases hts : ClosesOpened ts
    · have hneg : depth (ts ++ [t]) < 0 := by
        by_contra hnot
        exact h (closesOpened_concat.2 ⟨hts, Int.not_lt.1 hnot⟩)
      have hpos : 0 ≤ depth ts := hts ts (List.prefix_refl _)
      rw [depth_append] at hneg
      obtain ⟨-, ht⟩ | ⟨ht, hone⟩ := depth_singleton t
      · omega
      · exact ⟨ts, t, [], rfl, ht, hts, by omega⟩
    · obtain ⟨inner, q, after, rfl, hq, hinner⟩ := ih hts
      exact ⟨inner, q, after ++ [t], by simp, hq, hinner⟩

/-- A list leaves a group open, or it ends with no more groups opened than closed. -/
theorem exists_unclosed_or (ts : List Token) :
    (∃ before p inner, Unclosed ts before p inner) ∨ ∀ us, us <:+ ts → depth us ≤ 0 := by
  induction ts with
  | nil => exact .inr fun us hus => by rw [List.suffix_nil.1 hus]; decide
  | cons t ts ih =>
    obtain ⟨before, p, inner, h⟩ | hsuffix := ih
    · exact .inl ⟨t :: before, p, inner, by rw [h.eq]; rfl, h.left, h.balanced⟩
    · have hrest := hsuffix ts (List.suffix_refl _)
      by_cases hdepth : depth (t :: ts) ≤ 0
      · refine .inr fun us hus => ?_
        rcases List.suffix_cons_iff.1 hus with rfl | hus
        · exact hdepth
        · exact hsuffix us hus
      · -- only now the depth is above zero, so it is this token that opens a group
        rw [depth_cons] at hdepth
        have ht : t.kind = .leftParenthesis := by
          by_contra hl
          by_cases hr : t.kind = .rightParenthesis
          · rw [depth_right hr] at hdepth
            omega
          · rw [depth_other hl hr] at hdepth
            omega
        rw [depth_left ht] at hdepth
        refine .inl ⟨[], t, ts, rfl, ht, ?_, by omega⟩
        rintro us ⟨vs, rfl⟩
        have hvs := hsuffix vs (List.suffix_append _ _)
        rw [depth_append] at hdepth hrest
        omega

theorem exists_unclosed (h : 0 < depth ts) : ∃ before p inner, Unclosed ts before p inner := by
  obtain hunclosed | hsuffix := exists_unclosed_or ts
  · exact hunclosed
  · have := hsuffix ts (List.suffix_refl _)
    omega

namespace Balanced

theorem nil : Balanced [] := ⟨closesOpened_nil, rfl⟩

/-- A balanced list leaves no group open. -/
theorem not_unclosed (h : Balanced ts) : ¬ Unclosed ts before p inner := by
  intro hunclosed
  have hbefore := h.closesOpened before ⟨p :: inner, hunclosed.eq.symm⟩
  have hdepth := h.depth_eq
  rw [hunclosed.eq, depth_append, depth_cons, depth_left hunclosed.left,
    hunclosed.balanced.depth_eq] at hdepth
  omega

/-- Every parenthesis that opens a group belongs to a pair. -/
theorem exists_pair (h : Balanced ts) (hts : ts = before ++ p :: rest)
    (hp : p.kind = .leftParenthesis) : ∃ inner q after, Pair ts before p inner q after := by
  have hneg : ¬ ClosesOpened rest := fun hrest => by
    have hbefore := h.closesOpened before ⟨p :: rest, hts.symm⟩
    have hdepth := hrest rest (List.prefix_refl _)
    have hall := h.depth_eq
    rw [hts, depth_append, depth_cons, depth_left hp] at hall
    omega
  obtain ⟨inner, q, after, rfl, hq, hinner⟩ := exists_closing hneg
  exact ⟨inner, q, after, hts, hp, hq, hinner⟩

theorem append (hl : Balanced l) (hr : Balanced r) : Balanced (l ++ r) where
  closesOpened := fun us hus => by
    obtain ⟨vs, hvs⟩ := hus
    rcases List.append_eq_append_iff.1 hvs with ⟨ws, rfl, -⟩ | ⟨ws, rfl, rfl⟩
    · exact hl.closesOpened us (List.prefix_append _ _)
    · have hws := hr.closesOpened ws (List.prefix_append _ _)
      rw [depth_append, hl.depth_eq]
      omega
  depth_eq := by rw [depth_append, hl.depth_eq, hr.depth_eq, Int.add_zero]

/-- A token that is no parenthesis does not count. -/
theorem cons (hl : t.kind ≠ .leftParenthesis) (hr : t.kind ≠ .rightParenthesis)
    (h : Balanced l) : Balanced (t :: l) := by
  have hone : Balanced [t] := by
    have hdepth : depth ([] ++ [t]) = 0 := depth_other hl hr
    exact ⟨closesOpened_concat.2 ⟨closesOpened_nil, Int.le_of_eq hdepth.symm⟩, hdepth⟩
  exact hone.append h

theorem group (hp : p.kind = .leftParenthesis) (h : Balanced l) (hq : q.kind = .rightParenthesis) :
    Balanced (p :: (l ++ [q])) where
  closesOpened := fun us hus => by
    rcases List.prefix_cons_iff.1 hus with rfl | ⟨vs, rfl, hvs⟩
    · exact Int.le_refl 0
    · rw [depth_cons, depth_left hp]
      rcases List.prefix_concat_iff.1 hvs with rfl | hvs
      · rw [depth_append, h.depth_eq, depth_right hq]
        decide
      · have := h.closesOpened vs hvs
        omega
  depth_eq := by
    rw [depth_cons, depth_append, depth_left hp, h.depth_eq, depth_right hq]
    decide

end Balanced

/-- The parentheses of a phrase belong together. -/
theorem Derives.balanced {rank : Rank} {a : Tree} (h : Derives rank l a) : Balanced l := by
  induction h using operator_induction with
  | loosen _ _ ih => exact ih
  | operation _ ht _ ihl ihr => exact ihl.append (ihr.cons (by simp [ht]) (by simp [ht]))
  | operand ht =>
    refine Balanced.nil.cons ?_ ?_ <;> (intro hk; rw [hk] at ht; cases ht)
  | group hp _ hq ih => exact ih.group hp hq
  | call hf hp _ hq ih => exact (ih.group hp hq).cons (by simp [hf]) (by simp [hf])

end InfixTree
