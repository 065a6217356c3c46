import InfixTree.Proofs.Yard.Lockstep
import InfixTree.Proofs.Yard.Parentheses

/-! A list is read between parentheses as it is read by itself. What stands on the stacks
when the group opens stays below what the group puts there: its mark keeps the operands,
and its parenthesis keeps the operators. When the group closes, that parenthesis stands
where the bottom of the stack would have been. So a balanced list can be read in a group
just if it can be read by itself. -/
namespace InfixTree

open Token

/-- Both computations fail, or both succeed and the second result is made from the first. -/
abbrev Alike {ε α : Type} (f : α → α) : Except ε α → Except ε α → Prop :=
  Agree (fun _ _ => True) fun a b => b = f a

/-- The operands within a group that is opened above others. -/
def Operands.above (base s : Operands) : Operands where
  trees := s.trees ++ base.trees
  marks := s.marks.map (· + base.trees.length) ++ base.trees.length :: base.marks
  built := s.built ++ base.built

/-- The yard within a group whose parenthesis waits above another yard. -/
def Yard.above (base : Yard) (p : Token) (y : Yard) : Yard where
  operators := y.operators ++ p :: base.operators
  operands := base.operands.above y.operands

namespace Operands

variable {base s : Operands} {t f : Token}

theorem above_floor : (base.above s).floor = s.floor + base.trees.length := by
  cases hm : s.marks <;> simp [floor, above, hm]

theorem above_openGroup : base.above s.openGroup = (base.above s).openGroup := by
  simp [above, openGroup, Nat.add_comm]

theorem above_closeGroup (h : s.marks ≠ []) : (base.above s).closeGroup =
    (s.closeGroup.1, base.above s.closeGroup.2) := by
  have hfloor := (above_floor : (base.above s).floor = _)
  obtain ⟨m, marks, hm⟩ := List.exists_cons_of_ne_nil h
  simp only [closeGroup, hfloor]
  simp only [above, hm, List.length_append, List.map_cons, List.cons_append, List.tail_cons,
    Prod.mk.injEq, and_true]
  omega

/-- A group that holds no other one leaves its operands to the group around it. -/
theorem above_closeGroup_nil (h : s.marks = []) : (base.above s).closeGroup =
    (s.trees.length, ⟨s.trees ++ base.trees, base.marks, s.built ++ base.built⟩) := by
  simp [closeGroup, above, floor, h]

/-- There are as many operands of the innermost group as before. -/
theorem above_length_lt {n : Nat} : (base.above s).trees.length < (base.above s).floor + n ↔
    s.trees.length < s.floor + n := by
  rw [above_floor, above, List.length_append]
  omega

theorem above_operate : Alike base.above (s.operate t) ((base.above s).operate t) := by
  by_cases hlt : s.trees.length < s.floor + 2
  · rw [operate_of_lt hlt, operate_of_lt (above_length_lt.2 hlt)]
    exact True.intro
  · match hs : s.trees with
    | r :: l :: rest =>
      have hle : s.floor ≤ rest.length := by
        simp only [hs, List.length_cons] at hlt
        omega
      have hle' : (base.above s).floor ≤ (rest ++ base.trees).length := by
        rw [above_floor, List.length_append]
        omega
      rw [operate_eq_ok.2 ⟨r, l, rest, hs, hle, rfl⟩,
        operate_eq_ok.2 ⟨r, l, rest ++ base.trees, by simp [above, hs], hle', rfl⟩]
      rfl
    | [] | [_] =>
      simp only [hs, List.length_cons, List.length_nil] at hlt
      omega

theorem above_apply : Alike base.above (s.apply f) ((base.above s).apply f) := by
  by_cases hlt : s.trees.length < s.floor + 1
  · rw [apply_of_lt hlt, apply_of_lt (above_length_lt.2 hlt)]
    exact True.intro
  · match hs : s.trees with
    | a :: rest =>
      have hle : s.floor ≤ rest.length := by
        simp only [hs, List.length_cons] at hlt
        omega
      have hle' : (base.above s).floor ≤ (rest ++ base.trees).length := by
        rw [above_floor, List.length_append]
        omega
      rw [apply_eq_ok.2 ⟨a, rest, hs, hle, rfl⟩,
        apply_eq_ok.2 ⟨a, rest ++ base.trees, by simp [above, hs], hle', rfl⟩]
      rfl
    | [] =>
      simp only [hs, List.length_nil] at hlt
      omega

theorem above_call (n : Nat) : Alike base.above (s.call f n) ((base.above s).call f n) := by
  match n with
  | 1 => exact above_apply
  | 0 | n + 2 => exact True.intro

end Operands

namespace Yard

variable {base y y' : Yard} {p q t : Token} {ts ops : List Token} {s : Operands}
  {w : Operator → Bool}

/-- A reduction that reaches the end of the stack now stops at the parenthesis. -/
theorem above_reduce (hp : p.kind = .leftParenthesis) : Alike (base.above p) (reduce w ops s)
    (reduce w (ops ++ p :: base.operators) (base.operands.above s)) := by
  induction ops generalizing s with
  | nil =>
    have hstops : Stops w (p :: base.operators) := by simp [Stops, hp]
    rw [List.nil_append, reduce_of_stops hstops]
    rfl
  | cons t ops ih =>
    by_cases hany : t.operator?.any w
    · obtain ⟨o, ho, hw⟩ := (Option.any_eq_true _ _).1 hany
      rw [Lexeme.operator?_eq_some_iff] at ho
      rw [List.cons_append, reduce_operator ho hw, reduce_operator ho hw]
      refine Operands.above_operate.bind ?_
      rintro u _ rfl
      exact ih
    · simp [reduce, hany, Agree, above]

theorem above_leaveGroup (hp : p.kind = .leftParenthesis) (hmarks : s.marks ≠ []) :
    Alike (base.above p) (leaveGroup ops s)
      (leaveGroup (ops ++ p :: base.operators) (base.operands.above s)) := by
  unfold leaveGroup
  rw [Operands.above_closeGroup hmarks]
  generalize s.closeGroup = v
  obtain ⟨n, s⟩ := v
  cases ops with
  | nil => simp [hp, above, Agree, pure, Except.pure]
  | cons f rest =>
    by_cases hf : f.kind = .function
    · simp only [hf, if_true, List.cons_append]
      refine (Operands.above_call n).bind ?_
      rintro u _ rfl
      rfl
    · simp only [hf, if_false, List.cons_append]
      rfl

/-- Every step within the group is a step of the list by itself, as long as the group is not
closed. -/
theorem above_step (hp : p.kind = .leftParenthesis)
    (hmarks : y.operands.marks.length = y.operators.countP (·.kind = .leftParenthesis))
    (hopen : t.kind = .rightParenthesis → y.operators.countP (·.kind = .leftParenthesis) ≠ 0) :
    Alike (base.above p) (y.step t) ((base.above p y).step t) := by
  unfold step
  match hk : t.kind with
  | .literal | .variable | .function => rfl
  | .leftParenthesis => simp [above, Operands.above_openGroup, Agree]
  | .operator o =>
    refine (above_reduce hp).bind ?_
    rintro z _ rfl
    rfl
  | .comma => exact True.intro
  | .rightParenthesis =>
    refine (above_reduce hp).bind_of_eq ?_
    rintro ⟨ops, s⟩ _ hr - rfl
    have hcount : ops.countP (·.kind = .leftParenthesis) ≠ 0 := countP_reduce hr ▸ hopen hk
    have hlength := length_marks_reduce hr hmarks
    cases ops with
    | nil => exact absurd rfl hcount
    | cons q ops =>
      by_cases hq : q.kind = .leftParenthesis
      · have hne : s.marks ≠ [] := fun hnil => by
          rw [← hlength, hnil] at hcount
          exact hcount rfl
        simp only [above, List.cons_append, hq, if_true]
        exact above_leaveGroup hp hne
      · simp only [above, List.cons_append, hq, if_false]
        exact True.intro

/-- Within parentheses a list is read as by itself, if it closes only groups of its own. -/
theorem above_readAll (hp : p.kind = .leftParenthesis) (hts : ClosesOpened ts) :
    Alike (base.above p) (readAll {} ts) ((base.above p {}).readAll ts) := by
  induction ts using List.reverseRecOn with
  | nil => rfl
  | append_singleton ts t ih =>
    obtain ⟨hts, hdepth⟩ := closesOpened_concat.1 hts
    rw [readAll_concat, readAll_concat]
    refine (ih hts).bind_of_eq ?_
    rintro z _ hz - rfl
    refine above_step hp (length_marks hz) fun ht hcount => ?_
    rw [depth_append, (tallies_readAll hz).depth_eq, hcount, depth_right ht] at hdepth
    exact absurd hdepth (by decide)

theorem step_leftParenthesis (hp : p.kind = .leftParenthesis) :
    base.step p = .ok (base.above p {}) := by
  simp [step, hp, above, Operands.above, Operands.openGroup]

theorem readAll_group_eq (hp : p.kind = .leftParenthesis) :
    base.readAll (p :: (ts ++ [q])) = (base.above p {}).readAll ts >>= (step · q) := by
  rw [readAll_cons, step_leftParenthesis hp, ok_bind, readAll_concat]

/-- A list in parentheses that is read by itself leaves the group with its operands. -/
theorem readAll_group_of_arrange (hp : p.kind = .leftParenthesis) (hq : q.kind = .rightParenthesis)
    (h : arrange ts = .ok s) : base.readAll (p :: (ts ++ [q])) =
      leaveGroup base.operators (base.operands.above s) := by
  obtain ⟨y, hy, hr⟩ := arrange_eq_ok.1 h
  have hread : Alike (base.above p) _ _ := above_readAll hp (tallies_readAll hy).closesOpened
  rw [hy] at hread
  obtain ⟨_, hread, rfl⟩ := hread.ok_left
  have hreduced : Alike (base.above p) y.reduceAll (base.above p y).reduceAll := above_reduce hp
  rw [hr] at hreduced
  obtain ⟨_, hreduced, rfl⟩ := hreduced.ok_left
  rw [readAll_group_eq hp, hread, ok_bind]
  simp only [step, hq, closeGroup, hreduced, ok_bind]
  simp [above, hp]

/-- A balanced list that is read in parentheses is also read by itself. -/
theorem exists_arrange_of_group (hp : p.kind = .leftParenthesis) (hq : q.kind = .rightParenthesis)
    (hts : Balanced ts) (h : base.readAll (p :: (ts ++ [q])) = .ok y') :
    ∃ s, arrange ts = .ok s ∧ leaveGroup base.operators (base.operands.above s) = .ok y' := by
  have hgroup := h
  rw [readAll_group_eq hp, bind_eq_ok] at h
  obtain ⟨z, hz, h⟩ := h
  have hread : Alike (base.above p) _ _ := above_readAll hp hts.closesOpened
  rw [hz] at hread
  obtain ⟨y, hy, rfl⟩ := hread.ok_right
  simp only [step, hq] at h
  obtain ⟨q', ops', s', hr, hq', -⟩ := closeGroup_eq_ok.1 h
  have hreduced : Alike (base.above p) y.reduceAll (base.above p y).reduceAll := above_reduce hp
  rw [hr] at hreduced
  obtain ⟨⟨ops, s⟩, hys, heq⟩ := hreduced.ok_right
  have htallies := (tallies_readAll hy).reduce hys
  -- the list has no open parenthesis of its own, so the one that is closed is that of the group
  cases ops with
  | nil =>
    have harrange : arrange ts = .ok s := arrange_eq_ok.2 ⟨y, hy, hys⟩
    exact ⟨s, harrange, readAll_group_of_arrange hp hq harrange ▸ hgroup⟩
  | cons w ops =>
    obtain ⟨rfl, -⟩ := List.cons.inj (congrArg Yard.operators heq)
    have hdepth := htallies.depth_eq
    rw [hts.depth_eq, List.countP_cons_of_pos (by simpa using hq')] at hdepth
    omega

theorem marks_of_arrange (h : arrange ts = .ok s) : s.marks = [] := by
  obtain ⟨y, hy, hr⟩ := arrange_eq_ok.1 h
  have hlength := length_marks_reduce hr (length_marks hy)
  rwa [List.countP_nil, List.length_eq_zero_iff] at hlength

/-- Operands in parentheses stay where they are, unless a function waits to be called. -/
theorem leaveGroup_above (hops : ∀ f ∈ ops.head?, f.kind ≠ .function) (hmarks : s.marks = []) :
    leaveGroup ops (base.operands.above s) = .ok ⟨ops, s.trees ++ base.operands.trees,
      base.operands.marks, s.built ++ base.operands.built⟩ := by
  unfold leaveGroup
  rw [Operands.above_closeGroup_nil hmarks]
  cases ops with
  | nil => rfl
  | cons f rest => simp [hops f rfl, pure, Except.pure]

/-- A list in parentheses leaves its tree above what was there, unless a function waits to
be called with it. -/
theorem readAll_group {u : Tree} (hbase : ∀ f ∈ base.operators.head?, f.kind ≠ .function)
    (hp : p.kind = .leftParenthesis) (hq : q.kind = .rightParenthesis) (h : parse ts = .ok u) :
    ∃ built, base.readAll (p :: (ts ++ [q])) =
      .ok ⟨base.operators, u :: base.operands.trees, base.operands.marks, built⟩ := by
  obtain ⟨y, s, hy, hr, hs⟩ := parse_eq_ok.1 h
  have harrange : arrange ts = .ok s := arrange_eq_ok.2 ⟨y, hy, hr⟩
  rw [readAll_group_of_arrange hp hq harrange, leaveGroup_above hbase (marks_of_arrange harrange), hs]
  exact ⟨_, rfl⟩

end Yard

end InfixTree
