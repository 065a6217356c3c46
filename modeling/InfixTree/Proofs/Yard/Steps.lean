import InfixTree.Parse
import InfixTree.Proofs.Grammar

/-! What the yard can do, one statement for each operation. A reduction that succeeds
takes operators off the top of the stack, each with two operands of the innermost
group; a token that is read without error acts in one of six ways. -/
namespace InfixTree

theorem bind_eq_ok {α β ε : Type} {x : Except ε α} {f : α → Except ε β} {b : β} :
    x >>= f = .ok b ↔ ∃ a, x = .ok a ∧ f a = .ok b := by
  cases x <;> simp [bind, Except.bind]

theorem ok_bind {α β ε : Type} (a : α) (f : α → Except ε β) : .ok a >>= f = f a := rfl

theorem Lexeme.operator?_eq_some_iff {l : Lexeme} {o : Operator} :
    l.operator? = some o ↔ l.kind = .operator o := by
  unfold operator?
  split <;> simp_all

namespace Operands

variable {s s' : Operands} {t w : Token} {a : Tree}

/-- Nothing below the innermost mark has been taken. -/
def Intact (s : Operands) : Prop := s.floor ≤ s.trees.length

theorem pop_eq_ok : s.pop w = .ok (a, s') ↔
    ∃ rest, s.trees = a :: rest ∧ s.floor ≤ rest.length ∧ s' = { s with trees := rest } := by
  unfold pop
  split
  · rename_i b rest heq
    split_ifs with h
    · simp only [Except.ok.injEq, Prod.mk.injEq, heq, List.cons.injEq]
      constructor
      · rintro ⟨rfl, rfl⟩; exact ⟨rest, ⟨rfl, rfl⟩, h, rfl⟩
      · rintro ⟨_, ⟨rfl, rfl⟩, _, rfl⟩; exact ⟨rfl, rfl⟩
    · simp only [fail, reduceCtorEq, heq, List.cons.injEq, false_iff]
      rintro ⟨_, ⟨rfl, rfl⟩, hle, _⟩
      exact h hle
  · rename_i heq
    simp [fail, heq]

/-- An operator takes two operands of the innermost group, the right one first. -/
theorem operate_eq_ok : s.operate t = .ok s' ↔ ∃ r l rest, s.trees = r :: l :: rest ∧
    s.floor ≤ rest.length ∧ s' = { s with trees := rest }.build (.operation t l r) := by
  simp only [operate, bind_eq_ok, Prod.exists, pop_eq_ok, pure, Except.pure, Except.ok.injEq]
  constructor
  · rintro ⟨r, _, ⟨us, hs, _, rfl⟩, l, _, ⟨rest, rfl, hle, rfl⟩, rfl⟩
    exact ⟨r, l, rest, hs, hle, rfl⟩
  · rintro ⟨r, l, rest, hs, hle, rfl⟩
    exact ⟨r, _, ⟨_, hs, by simp only [List.length_cons]; omega, rfl⟩, l, _,
      ⟨rest, rfl, hle, rfl⟩, rfl⟩

theorem apply_eq_ok : s.apply t = .ok s' ↔ ∃ a rest, s.trees = a :: rest ∧
    s.floor ≤ rest.length ∧ s' = { s with trees := rest }.build (.application t a) := by
  simp only [apply, bind_eq_ok, Prod.exists, pop_eq_ok, pure, Except.pure, Except.ok.injEq]
  constructor
  · rintro ⟨a, _, ⟨rest, hs, hle, rfl⟩, rfl⟩; exact ⟨a, rest, hs, hle, rfl⟩
  · rintro ⟨a, rest, hs, hle, rfl⟩; exact ⟨a, _, ⟨rest, hs, hle, rfl⟩, rfl⟩

theorem operate_of_lt (h : s.trees.length < s.floor + 2) :
    s.operate t = s.fail (.missingOperand t.value) := by
  match hs : s.trees with
  | [] => simp [operate, pop, hs, fail, bind, Except.bind]
  | [r] =>
    by_cases hf : s.floor ≤ 0 <;> simp [operate, pop, hs, hf, fail, bind, Except.bind]
  | r :: l :: rest =>
    simp only [hs, List.length_cons] at h
    by_cases hf : s.floor ≤ rest.length + 1
    · have hn : ¬ Operands.floor ⟨l :: rest, s.marks, s.built⟩ ≤ rest.length := by
        change ¬ s.floor ≤ rest.length
        omega
      simp [operate, pop, hs, hf, hn, fail, bind, Except.bind]
    · simp [operate, pop, hs, hf, fail, bind, Except.bind]

theorem apply_of_lt (h : s.trees.length < s.floor + 1) :
    s.apply t = s.fail (.missingOperand t.value) := by
  cases hs : s.trees with
  | nil => simp [apply, pop, hs, fail, bind, Except.bind]
  | cons a rest =>
    have hf : ¬ s.floor ≤ rest.length := by
      simp only [hs, List.length_cons] at h
      omega
    simp [apply, pop, hs, hf, fail, bind, Except.bind]

theorem call_eq_ok {n : Nat} : s.call t n = .ok s' ↔ n = 1 ∧ s.apply t = .ok s' := by
  match n with
  | 0 | 1 | n + 2 => simp [call, fail]

theorem root_eq_ok : s.root = .ok a ↔ s.trees = [a] := by
  unfold root
  split <;> simp_all

end Operands

namespace Yard

variable {p : Operator → Bool} {t : Token} {ts ops ops' : List Token} {s s' : Operands}
  {y y' : Yard} {o : Operator}

/-! ### Reductions -/

theorem reduce_operator (ht : t.kind = .operator o) (hp : p o) :
    reduce p (t :: ts) s = s.operate t >>= reduce p ts := by
  simp [reduce, Lexeme.operator?_eq_some_iff.2 ht, hp]

/-- The top of the stack is no operator that the condition lets go. -/
def Stops (p : Operator → Bool) (ops : List Token) : Prop :=
  ∀ t ∈ ops.head?, ∀ o, t.kind = .operator o → p o = false

theorem reduce_of_stops (h : Stops p ops) : reduce p ops s = .ok ⟨ops, s⟩ := by
  cases ops with
  | nil => rfl
  | cons t ts =>
    have hany : t.operator?.any p = false := by
      cases ho : t.operator? with
      | none => rfl
      | some o => exact h t rfl o (Lexeme.operator?_eq_some_iff.1 ho)
    simp [reduce, hany]

/-- What single operations keep, a reduction keeps; and it ends where it has to. -/
theorem reduce_induction {P : List Token → Operands → Prop}
    (step : ∀ {t o ts s s'}, t.kind = .operator o → p o → s.operate t = .ok s' →
      P (t :: ts) s → P ts s')
    (h : reduce p ops s = .ok ⟨ops', s'⟩) (hs : P ops s) : P ops' s' ∧ Stops p ops' := by
  induction ops generalizing s with
  | nil =>
    simp only [reduce, Except.ok.injEq, mk.injEq] at h
    obtain ⟨rfl, rfl⟩ := h
    exact ⟨hs, by simp [Stops]⟩
  | cons t ts ih =>
    by_cases hany : t.operator?.any p
    · obtain ⟨o, ho, hp⟩ := (Option.any_eq_true _ _).1 hany
      rw [Lexeme.operator?_eq_some_iff] at ho
      rw [reduce_operator ho hp, bind_eq_ok] at h
      obtain ⟨u, hu, h⟩ := h
      exact ih h (step ho hp hu hs)
    · simp only [reduce, hany, Bool.false_eq_true, if_false, Except.ok.injEq, mk.injEq] at h
      obtain ⟨rfl, rfl⟩ := h
      refine ⟨hs, ?_⟩
      simp only [Stops, List.head?_cons, Option.mem_def, Option.some.injEq, forall_eq']
      intro o ho
      rw [Lexeme.operator?_eq_some_iff.2 ho] at hany
      simpa using hany

theorem stops_of_reduce (h : reduce p ops s = .ok ⟨ops', s'⟩) : Stops p ops' :=
  (reduce_induction (P := fun _ _ => True) (fun _ _ _ _ => trivial) h trivial).2

/-- A reduction that succeeds takes operators only, and each of them leaves one operand
less; no group is opened or closed. -/
theorem reduce_taken (h : reduce p ops s = .ok ⟨ops', s'⟩) :
    ∃ taken, ops = taken ++ ops' ∧ (∀ t ∈ taken, ∃ o, t.kind = .operator o) ∧
      s'.marks = s.marks ∧ s'.trees.length + taken.length = s.trees.length ∧
      (taken ≠ [] → s.floor < s'.trees.length) := by
  refine (reduce_induction (P := fun us u => ∃ taken, ops = taken ++ us ∧
    (∀ t ∈ taken, ∃ o, t.kind = .operator o) ∧ u.marks = s.marks ∧
    u.trees.length + taken.length = s.trees.length ∧
    (taken ≠ [] → s.floor < u.trees.length)) ?_ h ⟨[], by simp⟩).1
  rintro t o ts u u' ho - hu ⟨taken, rfl, hops, hm, hl, -⟩
  obtain ⟨r, l, rest, hr, hle, rfl⟩ := Operands.operate_eq_ok.1 hu
  have hf : u.floor = s.floor := by simp [Operands.floor, hm]
  simp only [hr, List.length_cons] at hl
  refine ⟨taken ++ [t], by simp, ?_, hm, ?_, fun _ => ?_⟩
  · simp only [List.mem_append, List.mem_singleton]
    rintro w (hw | rfl)
    · exact hops w hw
    · exact ⟨o, ho⟩
  · simp only [Operands.build, List.length_cons, List.length_append, List.length_nil]
    omega
  · simp only [Operands.build, List.length_cons]
    omega

/-! ### Steps -/

theorem pushOperator_eq_ok : y.pushOperator t o = .ok y' ↔
    ∃ ops s, reduce o.yieldsTo y.operators y.operands = .ok ⟨ops, s⟩ ∧ y' = ⟨t :: ops, s⟩ := by
  simp only [pushOperator, bind_eq_ok, pure, Except.pure, Except.ok.injEq]
  constructor
  · rintro ⟨⟨ops, s⟩, h, rfl⟩; exact ⟨ops, s, h, rfl⟩
  · rintro ⟨ops, s, h, rfl⟩; exact ⟨_, h, rfl⟩

theorem closeGroup_eq_ok : y.closeGroup = .ok y' ↔ ∃ q ops s,
    y.reduceAll = .ok ⟨q :: ops, s⟩ ∧ q.kind = .leftParenthesis ∧ leaveGroup ops s = .ok y' := by
  simp only [closeGroup, bind_eq_ok]
  constructor
  · rintro ⟨⟨ops, s⟩, h, hy⟩
    cases ops with
    | nil => simp [Operands.fail] at hy
    | cons q ops =>
      by_cases hq : q.kind = .leftParenthesis
      · exact ⟨q, ops, s, h, hq, by simpa [hq] using hy⟩
      · simp [hq, Operands.fail] at hy
  · rintro ⟨q, ops, s, h, hq, hy⟩
    exact ⟨_, h, by simpa [hq] using hy⟩

theorem finish_eq_ok : y.finish = .ok s ↔ y.reduceAll = .ok ⟨[], s⟩ := by
  simp only [finish, bind_eq_ok]
  constructor
  · rintro ⟨⟨ops, u⟩, h, hs⟩
    cases ops with
    | nil => cases hs; exact h
    | cons => simp [Operands.fail] at hs
  · intro h
    exact ⟨_, h, rfl⟩

/-- The ways in which a token is read without error. -/
inductive Step (y : Yard) (t : Token) : Yard → Prop
  | operand : t.kind.isOperand → Step y t { y with operands := y.operands.push (.leaf t) }
  | function : t.kind = .function → Step y t { y with operators := t :: y.operators }
  | openGroup : t.kind = .leftParenthesis → Step y t ⟨t :: y.operators, y.operands.openGroup⟩
  | operator {o : Operator} {ops : List Token} {s : Operands} : t.kind = .operator o →
    reduce o.yieldsTo y.operators y.operands = .ok ⟨ops, s⟩ → Step y t ⟨t :: ops, s⟩
  | closeGroup {q : Token} {ops : List Token} {s : Operands} : t.kind = .rightParenthesis →
    y.reduceAll = .ok ⟨q :: ops, s⟩ → q.kind = .leftParenthesis →
    (∀ f ∈ ops.head?, f.kind ≠ .function) → Step y t ⟨ops, s.closeGroup.2⟩
  | closeCall {q f : Token} {ops : List Token} {s s' : Operands} : t.kind = .rightParenthesis →
    y.reduceAll = .ok ⟨q :: f :: ops, s⟩ → q.kind = .leftParenthesis → f.kind = .function →
    s.closeGroup.1 = 1 → s.closeGroup.2.apply f = .ok s' → Step y t ⟨ops, s'⟩

theorem step_of_ok (h : y.step t = .ok y') : Step y t y' := by
  unfold step at h
  split at h
  · cases h; exact .operand (by simp [*, Kind.isOperand])
  · cases h; exact .operand (by simp [*, Kind.isOperand])
  · cases h; exact .function ‹_›
  · cases h; exact .openGroup ‹_›
  · obtain ⟨q, ops, s, hr, hq, hl⟩ := closeGroup_eq_ok.1 h
    unfold leaveGroup at hl
    split at hl
    rename_i count u hu
    split at hl
    · rename_i f rest
      split_ifs at hl with hf
      · obtain ⟨v, hv, hl⟩ := bind_eq_ok.1 hl
        obtain ⟨h1, hv⟩ := Operands.call_eq_ok.1 hv
        cases hl
        exact .closeCall ‹_› hr hq hf (by rw [hu, h1]) (by rwa [hu])
      · cases hl
        have := Step.closeGroup ‹_› hr hq (by simpa using hf)
        rwa [hu] at this
    · cases hl
      have := Step.closeGroup ‹_› hr hq (by simp)
      rwa [hu] at this
  · obtain ⟨ops, s, hr, rfl⟩ := pushOperator_eq_ok.1 h
    exact .operator ‹_› hr
  · simp [Operands.fail] at h

theorem readAll_cons : y.readAll (t :: ts) = y.step t >>= (readAll · ts) := List.foldlM_cons

theorem readAll_append {us : List Token} :
    y.readAll (ts ++ us) = y.readAll ts >>= (readAll · us) := List.foldlM_append

theorem readAll_concat : y.readAll (ts ++ [t]) = y.readAll ts >>= (step · t) := by
  simp [readAll]

/-- What holds of the empty yard and is kept by single tokens holds after any list. -/
theorem readAll_induction {P : List Token → Yard → Prop} (start : P [] {})
    (step : ∀ {ts t y y'}, P ts y → Step y t y' → P (ts ++ [t]) y')
    (h : readAll {} ts = .ok y) : P ts y := by
  induction ts using List.reverseRecOn generalizing y with
  | nil =>
    cases h
    exact start
  | append_singleton ts t ih =>
    rw [readAll_concat, bind_eq_ok] at h
    obtain ⟨z, hz, h⟩ := h
    exact step (ih hz) (step_of_ok h)

end Yard

theorem arrange_eq_ok {ts : List Token} {s : Operands} : arrange ts = .ok s ↔
    ∃ y, Yard.readAll {} ts = .ok y ∧ y.reduceAll = .ok ⟨[], s⟩ := by
  simp only [arrange, bind_eq_ok, Yard.finish_eq_ok]

/-- A list that leaves nothing waiting is parsed as what is left says. -/
theorem parse_eq_root {ts : List Token} {y : Yard} {s : Operands} (hy : Yard.readAll {} ts = .ok y)
    (hr : y.reduceAll = .ok ⟨[], s⟩) : parse ts = s.root := by
  rw [parse, arrange_eq_ok.2 ⟨y, hy, hr⟩]

theorem parse_eq_ok {ts : List Token} {a : Tree} : parse ts = .ok a ↔
    ∃ y s, Yard.readAll {} ts = .ok y ∧ y.reduceAll = .ok ⟨[], s⟩ ∧ s.trees = [a] := by
  unfold parse
  split
  · rename_i s hs
    obtain ⟨y, hy, hr⟩ := arrange_eq_ok.1 hs
    rw [Operands.root_eq_ok]
    constructor
    · intro ha; exact ⟨y, s, hy, hr, ha⟩
    · rintro ⟨y', s', hy', hr', ha⟩
      rw [arrange_eq_ok.2 ⟨y', hy', hr'⟩, Except.ok.injEq] at hs
      exact hs ▸ ha
  · rename_i e he
    simp only [reduceCtorEq, false_iff]
    rintro ⟨y, s, hy, hr, -⟩
    rw [arrange_eq_ok.2 ⟨y, hy, hr⟩] at he
    cases he

end InfixTree
