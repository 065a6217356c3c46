import InfixTree.Proofs.Yard.Invariants

/-! Marks stay in step with the stacks: each open parenthesis that waits has one, inner
groups were opened at no smaller height than outer ones, and reductions never reach below
a mark. -/
namespace InfixTree

namespace Operands

variable {s s' : Operands} {t : Token}

/-- Inner groups are marked no lower than outer ones, and no mark is above the operands. -/
structure Marked (s : Operands) : Prop where
  sorted : s.marks.Pairwise (· ≥ ·)
  le_length : ∀ m ∈ s.marks, m ≤ s.trees.length

namespace Marked

theorem le_floor (h : s.Marked) : ∀ m ∈ s.marks, m ≤ s.floor := by
  have hsorted := h.sorted
  unfold floor
  cases hm : s.marks with
  | nil => simp
  | cons n marks =>
    rw [hm, List.pairwise_cons] at hsorted
    exact List.forall_mem_cons.2 ⟨le_rfl, hsorted.1⟩

theorem intact (h : s.Marked) : s.Intact := by
  unfold Intact floor
  cases hm : s.marks with
  | nil => simp
  | cons n marks => exact h.le_length n (by simp [hm])

/-- Operands may come and go as long as nothing below the innermost mark is taken. -/
theorem of_intact (h : s.Marked) (hm : s'.marks = s.marks) (hs' : s'.Intact) : s'.Marked where
  sorted := hm ▸ h.sorted
  le_length := fun m hmem => by
    have hle := h.le_floor m (hm ▸ hmem)
    have hfloor : s'.floor = s.floor := by rw [floor, floor, hm]
    have hintact : s'.floor ≤ s'.trees.length := hs'
    omega

theorem push (h : s.Marked) (a : Tree) : (s.push a).Marked :=
  h.of_intact rfl (Nat.le_succ_of_le h.intact)

theorem openGroup (h : s.Marked) : s.openGroup.Marked where
  sorted := List.pairwise_cons.2 ⟨h.le_length, h.sorted⟩
  le_length := List.forall_mem_cons.2 ⟨le_rfl, h.le_length⟩

theorem closeGroup (h : s.Marked) : s.closeGroup.2.Marked where
  sorted := h.sorted.tail
  le_length := fun m hm => h.le_length m (List.mem_of_mem_tail hm)

theorem operate (h : s.Marked) (ho : s.operate t = .ok s') : s'.Marked := by
  obtain ⟨r, l, rest, -, hle, rfl⟩ := operate_eq_ok.1 ho
  exact h.of_intact rfl (Nat.le_succ_of_le hle)

theorem apply (h : s.Marked) (ha : s.apply t = .ok s') : s'.Marked := by
  obtain ⟨a, rest, -, hle, rfl⟩ := apply_eq_ok.1 ha
  exact h.of_intact rfl (Nat.le_succ_of_le hle)

theorem reduce {p : Operator → Bool} {ops ops' : List Token} (h : s.Marked)
    (hr : Yard.reduce p ops s = .ok ⟨ops', s'⟩) : s'.Marked :=
  (Yard.reduce_induction (P := fun _ u => u.Marked) (fun _ _ hu hs => hs.operate hu) hr h).1

end Marked

end Operands

namespace Yard

variable {p : Operator → Bool} {ops ops' ts : List Token} {s s' : Operands} {y y' : Yard}
  {t : Token}

theorem marked_step (h : y.operands.Marked) (hy : Step y t y') : y'.operands.Marked := by
  cases hy with
  | operand => exact h.push _
  | function => exact h
  | openGroup => exact h.openGroup
  | operator _ hr => exact h.reduce hr
  | closeGroup _ hr => exact (h.reduce hr).closeGroup
  | closeCall _ hr _ _ _ ha => exact (h.reduce hr).closeGroup.apply ha

/-- Each open parenthesis that waits has its mark among the operands. -/
structure InStep (y : Yard) : Prop where
  count : y.operands.marks.length = y.operators.countP (·.kind = .leftParenthesis)
  marked : y.operands.Marked

theorem inStep_readAll (h : readAll {} ts = .ok y) : y.InStep where
  count := length_marks h
  marked := readAll_induction (P := fun _ y => y.operands.Marked) ⟨by simp, by simp⟩ marked_step h

namespace InStep

theorem reduce (h : InStep ⟨ops, s⟩) (hr : Yard.reduce p ops s = .ok ⟨ops', s'⟩) :
    InStep ⟨ops', s'⟩ :=
  ⟨length_marks_reduce hr h.count, h.marked.reduce hr⟩

/-- A parenthesis on top has its mark, which is not above the operands. -/
theorem exists_mark {q : Token} (h : InStep ⟨q :: ops, s⟩) (hq : q.kind = .leftParenthesis) :
    ∃ m marks, s.marks = m :: marks ∧ m ≤ s.trees.length := by
  have hcount := h.count
  rw [List.countP_cons_of_pos (by simpa using hq)] at hcount
  obtain ⟨m, marks, hm⟩ := List.exists_cons_of_length_eq_add_one hcount
  exact ⟨m, marks, hm, h.marked.le_length m (hm ▸ List.mem_cons_self)⟩

end InStep

end Yard

end InfixTree
