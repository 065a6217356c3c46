import InfixTree.Proofs.Yard.Steps
import Mathlib.Data.List.Forall2

/-! Two yards in lockstep. What a yard does next hangs on the kinds of tokens, on how many
operands it has and on where its groups begin, and on nothing else. So lists of the same
kinds are read alike: both runs fail for one reason, or they build trees that stay in
whatever relation leaves, calls and operations keep. -/
namespace InfixTree

/-- The error with the text it may give changed. -/
def ParseError.mapText (g : String → String) : ParseError → ParseError
  | .missingOperand value => .missingOperand (g value)
  | .multipleArguments function => .multipleArguments (g function)
  | e => e

theorem ParseError.mapText_id (e : ParseError) : e.mapText (fun v => v) = e := by cases e <;> rfl

/-! ### Outcomes -/

/-- Both computations succeed with related results, or both fail with related errors. -/
def Agree {ε α : Type} (E : ε → ε → Prop) (P : α → α → Prop) : Except ε α → Except ε α → Prop
  | .ok a, .ok b => P a b
  | .error e, .error f => E e f
  | _, _ => False

namespace Agree

variable {ε α β : Type} {E : ε → ε → Prop} {P : α → α → Prop} {Q : β → β → Prop}
  {x x' : Except ε α} {f f' : α → Except ε β}

theorem bind_of_eq (h : Agree E P x x')
    (hf : ∀ a b, x = .ok a → x' = .ok b → P a b → Agree E Q (f a) (f' b)) :
    Agree E Q (x >>= f) (x' >>= f') := by
  cases x with
  | error e =>
    cases x' with
    | error e' => exact h
    | ok b => exact h.elim
  | ok a =>
    cases x' with
    | error e' => exact h.elim
    | ok b => exact hf a b rfl rfl h

theorem bind (h : Agree E P x x') (hf : ∀ a b, P a b → Agree E Q (f a) (f' b)) :
    Agree E Q (x >>= f) (x' >>= f') := h.bind_of_eq fun a b _ _ => hf a b

theorem ok_left {a : α} (h : Agree E P (.ok a) x') : ∃ b, x' = .ok b ∧ P a b := by
  cases x' with
  | error e' => exact h.elim
  | ok b => exact ⟨b, rfl, h⟩

theorem ok_right {b : α} (h : Agree E P x (.ok b)) : ∃ a, x = .ok a ∧ P a b := by
  cases x with
  | error e => exact h.elim
  | ok a => exact ⟨a, rfl, h⟩

theorem eq_map {f : α → α} {g : ε → ε} (h : Agree E P x x') (hE : ∀ e e', E e e' → e' = g e)
    (hP : ∀ a b, P a b → b = f a) : x' = (x.map f).mapError g := by
  cases x with
  | error e =>
    cases x' with
    | error e' => exact congrArg Except.error (hE e e' h)
    | ok b => exact h.elim
  | ok a =>
    cases x' with
    | error e' => exact h.elim
    | ok b => exact congrArg Except.ok (hP a b h)

end Agree

/-! ### Correspondences -/

/-- A relation between the tokens of two lists and between the trees built on them. -/
structure Correspondence where
  token : Token → Token → Prop
  forest : List Tree → List Tree → Prop
  text : String → String
  kind_eq {t u : Token} : token t u → t.kind = u.kind
  value_eq {t u : Token} : token t u → u.value = text t.value
  length_eq {as bs : List Tree} : forest as bs → as.length = bs.length
  leaf {t u : Token} {as bs : List Tree} : token t u → t.kind.isOperand → forest as bs →
    forest (.leaf t :: as) (.leaf u :: bs)
  application {f g : Token} {a b : Tree} {as bs : List Tree} : token f g → f.kind = .function →
    forest (a :: as) (b :: bs) → forest (.application f a :: as) (.application g b :: bs)
  operation {t u : Token} {o : Operator} {l l' r r' : Tree} {as bs : List Tree} :
    token t u → t.kind = .operator o → forest (r :: l :: as) (r' :: l' :: bs) →
      forest (.operation t l r :: as) (.operation u l' r' :: bs)

namespace Correspondence

variable (c : Correspondence)

def Failures (e f : Failure) : Prop := f.cause = e.cause.mapText c.text

structure Stacks (s s' : Operands) : Prop where
  trees : c.forest s.trees s'.trees
  marks : s.marks = s'.marks

structure Yards (y y' : Yard) : Prop where
  operators : List.Forall₂ c.token y.operators y'.operators
  operands : c.Stacks y.operands y'.operands

variable {c} {s s' : Operands} {y y' : Yard} {t u f g : Token} {ts us ops ops' : List Token}

namespace Stacks

theorem length_eq (h : c.Stacks s s') : s.trees.length = s'.trees.length := c.length_eq h.trees

theorem floor_eq (h : c.Stacks s s') : s.floor = s'.floor := by
  unfold Operands.floor
  rw [h.marks]

theorem fail {α : Type} {P : α → α → Prop} {e e' : ParseError} (he : e' = e.mapText c.text) :
    Agree c.Failures P (s.fail e) (s'.fail e') := he

theorem openGroup (h : c.Stacks s s') : c.Stacks s.openGroup s'.openGroup :=
  ⟨h.trees, by simp only [Operands.openGroup, h.length_eq, h.marks]⟩

/-- Both stacks hold as much, so an operator finds its operands on both or on neither. -/
theorem operate (h : c.Stacks s s') (htu : c.token t u) {o : Operator}
    (ht : t.kind = .operator o) : Agree c.Failures c.Stacks (s.operate t) (s'.operate u) := by
  have hlen := h.length_eq
  have hfloor := h.floor_eq
  by_cases hlt : s.trees.length < s.floor + 2
  · rw [Operands.operate_of_lt hlt, Operands.operate_of_lt (by omega)]
    exact fail (by rw [c.value_eq htu]; rfl)
  · obtain ⟨trees, marks, built⟩ := s
    obtain ⟨trees', marks', built'⟩ := s'
    match trees, trees' with
    | r :: l :: rest, r' :: l' :: rest' =>
      simp only [List.length_cons] at hlen hlt
      rw [Operands.operate_eq_ok.2 ⟨r, l, rest, rfl, by omega, rfl⟩,
        Operands.operate_eq_ok.2 ⟨r', l', rest', rfl, by omega, rfl⟩]
      exact ⟨c.operation htu ht h.trees, h.marks⟩
    | [], _ | [_], _ | _ :: _ :: _, [] | _ :: _ :: _, [_] =>
      simp only [List.length_cons, List.length_nil] at hlen hlt
      omega

theorem apply (h : c.Stacks s s') (hfg : c.token f g) (hf : f.kind = .function) :
    Agree c.Failures c.Stacks (s.apply f) (s'.apply g) := by
  have hlen := h.length_eq
  have hfloor := h.floor_eq
  by_cases hlt : s.trees.length < s.floor + 1
  · rw [Operands.apply_of_lt hlt, Operands.apply_of_lt (by omega)]
    exact fail (by rw [c.value_eq hfg]; rfl)
  · obtain ⟨trees, marks, built⟩ := s
    obtain ⟨trees', marks', built'⟩ := s'
    match trees, trees' with
    | a :: rest, a' :: rest' =>
      simp only [List.length_cons] at hlen hlt
      rw [Operands.apply_eq_ok.2 ⟨a, rest, rfl, by omega, rfl⟩,
        Operands.apply_eq_ok.2 ⟨a', rest', rfl, by omega, rfl⟩]
      exact ⟨c.application hfg hf h.trees, h.marks⟩
    | [], _ | _ :: _, [] =>
      simp only [List.length_cons, List.length_nil] at hlen hlt
      omega

theorem call (h : c.Stacks s s') (hfg : c.token f g) (hf : f.kind = .function) (n : Nat) :
    Agree c.Failures c.Stacks (s.call f n) (s'.call g n) := by
  match n with
  | 0 => exact fail (by rw [c.value_eq hfg]; rfl)
  | 1 => exact h.apply hfg hf
  | n + 2 => exact fail (by rw [c.value_eq hfg]; rfl)

theorem closeGroup (h : c.Stacks s s') : s.closeGroup.1 = s'.closeGroup.1 ∧
    c.Stacks s.closeGroup.2 s'.closeGroup.2 := by
  refine ⟨?_, h.trees, ?_⟩
  · simp only [Operands.closeGroup, h.length_eq, h.floor_eq]
  · simp only [Operands.closeGroup, h.marks]

/-- What is left is a tree of both, or as many trees of both. -/
theorem root (h : c.Stacks s s') : Agree (fun e e' => e' = e.mapText c.text)
    (fun a b => c.forest [a] [b]) s.root s'.root := by
  have hlen := h.length_eq
  have htrees := h.trees
  unfold Operands.root
  match hs : s.trees, hs' : s'.trees with
  | [], [] => rfl
  | [a], [b] =>
    rw [hs, hs'] at htrees
    exact htrees
  | _ :: _ :: rest, _ :: _ :: rest' =>
    rw [hs, hs'] at hlen
    simp only [Agree, ParseError.mapText, hlen]
  | [], _ :: _ | _ :: _, [] | [_], _ :: _ :: _ | _ :: _ :: _, [_] =>
    rw [hs, hs'] at hlen
    simp at hlen

end Stacks

theorem operator?_eq (h : c.token t u) : t.operator? = u.operator? := by
  unfold Lexeme.operator?
  rw [c.kind_eq h]

theorem reduce (p : Operator → Bool) (hops : List.Forall₂ c.token ops ops')
    (hs : c.Stacks s s') :
    Agree c.Failures c.Yards (Yard.reduce p ops s) (Yard.reduce p ops' s') := by
  induction hops generalizing s s' with
  | nil => exact ⟨.nil, hs⟩
  | @cons t u ts us htu hrest ih =>
    by_cases hany : t.operator?.any p
    · obtain ⟨o, ho, hp⟩ := (Option.any_eq_true _ _).1 hany
      rw [Lexeme.operator?_eq_some_iff] at ho
      rw [Yard.reduce_operator ho hp, Yard.reduce_operator (c.kind_eq htu ▸ ho) hp]
      exact (hs.operate htu ho).bind fun _ _ => ih
    · have hany' : ¬ u.operator?.any p := operator?_eq htu ▸ hany
      simp only [Yard.reduce, hany, hany']
      exact ⟨.cons htu hrest, hs⟩

namespace Yards

theorem reduceAll (h : c.Yards y y') : Agree c.Failures c.Yards y.reduceAll y'.reduceAll :=
  reduce _ h.operators h.operands

theorem pushOperator (h : c.Yards y y') (htu : c.token t u) (o : Operator) :
    Agree c.Failures c.Yards (y.pushOperator t o) (y'.pushOperator u o) :=
  (reduce _ h.operators h.operands).bind fun _ _ hz => ⟨.cons htu hz.operators, hz.operands⟩

end Yards

theorem leaveGroup (hops : List.Forall₂ c.token ops ops') (hs : c.Stacks s s') :
    Agree c.Failures c.Yards (Yard.leaveGroup ops s) (Yard.leaveGroup ops' s') := by
  have hclose := hs.closeGroup
  unfold Yard.leaveGroup
  generalize s.closeGroup = v at hclose ⊢
  generalize s'.closeGroup = v' at hclose ⊢
  obtain ⟨n, s⟩ := v
  obtain ⟨n', s'⟩ := v'
  obtain ⟨hcount, hclose⟩ := hclose
  dsimp only at hcount
  subst hcount
  cases hops with
  | nil => exact ⟨.nil, hclose⟩
  | @cons f g rest rest' hfg hrest =>
    by_cases hf : f.kind = .function
    · simp only [hf, ← c.kind_eq hfg, if_true]
      exact (hclose.call hfg hf _).bind fun _ _ hz => ⟨hrest, hz⟩
    · simp only [hf, ← c.kind_eq hfg, if_false]
      exact ⟨.cons hfg hrest, hclose⟩

theorem commaError_eq (hops : List.Forall₂ c.token ops ops') :
    Yard.commaError ops' = (Yard.commaError ops).mapText c.text := by
  unfold Yard.commaError
  induction hops with
  | nil => rfl
  | @cons p q rest rest' hpq hrest ih =>
    by_cases hp : p.kind = .leftParenthesis
    · have hq : q.kind = .leftParenthesis := c.kind_eq hpq ▸ hp
      rw [List.dropWhile_cons_of_neg (by simp [hq]), List.dropWhile_cons_of_neg (by simp [hp])]
      cases hrest with
      | nil => rfl
      | @cons f g _ _ hfg _ =>
        by_cases hf : f.kind = .function
        · simp only [hf, ← c.kind_eq hfg, if_true, ParseError.mapText, c.value_eq hfg]
        · simp only [hf, ← c.kind_eq hfg, if_false, ParseError.mapText]
    · have hq : q.kind ≠ .leftParenthesis := c.kind_eq hpq ▸ hp
      rw [List.dropWhile_cons_of_pos (by simpa using hq),
        List.dropWhile_cons_of_pos (by simpa using hp)]
      exact ih

namespace Yards

theorem closeGroup (h : c.Yards y y') : Agree c.Failures c.Yards y.closeGroup y'.closeGroup := by
  refine h.reduceAll.bind ?_
  rintro ⟨ops, s⟩ ⟨ops', s'⟩ ⟨hops, hs⟩
  cases hops with
  | nil => exact Stacks.fail rfl
  | @cons p q rest rest' hpq hrest =>
    by_cases hp : p.kind = .leftParenthesis
    · simp only [hp, ← c.kind_eq hpq, if_true]
      exact leaveGroup hrest hs
    · simp only [hp, ← c.kind_eq hpq, if_false]
      exact Stacks.fail rfl

theorem step (h : c.Yards y y') (htu : c.token t u) :
    Agree c.Failures c.Yards (y.step t) (y'.step u) := by
  unfold Yard.step
  rw [← c.kind_eq htu]
  match hk : t.kind with
  | .literal | .variable =>
    exact ⟨h.operators, c.leaf htu (by simp [hk, Kind.isOperand]) h.operands.trees,
      h.operands.marks⟩
  | .operator o => exact h.pushOperator htu o
  | .function => exact ⟨.cons htu h.operators, h.operands⟩
  | .leftParenthesis => exact ⟨.cons htu h.operators, h.operands.openGroup⟩
  | .rightParenthesis => exact h.closeGroup
  | .comma => exact Stacks.fail (commaError_eq h.operators)

theorem readAll (h : c.Yards y y') (hts : List.Forall₂ c.token ts us) :
    Agree c.Failures c.Yards (y.readAll ts) (y'.readAll us) := by
  induction hts generalizing y y' with
  | nil => exact h
  | cons htu _ ih =>
    rw [Yard.readAll_cons, Yard.readAll_cons]
    exact (h.step htu).bind fun _ _ => ih

theorem finish (h : c.Yards y y') : Agree c.Failures c.Stacks y.finish y'.finish := by
  refine h.reduceAll.bind ?_
  rintro ⟨ops, s⟩ ⟨ops', s'⟩ ⟨hops, hs⟩
  cases hops with
  | nil => exact hs
  | cons => exact Stacks.fail rfl

end Yards

end Correspondence

/-! ### Results -/

/-- What a yard makes of a list, once that has ended. -/
def Yard.result (y : Yard) (ts : List Token) : Except ParseError Tree :=
  match y.readAll ts >>= finish with
  | .ok s => s.root
  | .error e => .error e.cause

theorem parse_eq_result (ts : List Token) : parse ts = Yard.result {} ts := rfl

namespace Correspondence

variable {c : Correspondence} {y y' : Yard} {ts us : List Token}

theorem Yards.result (h : c.Yards y y') (hts : List.Forall₂ c.token ts us) :
    Agree (fun e e' => e' = e.mapText c.text) (fun a b => c.forest [a] [b])
      (y.result ts) (y'.result us) := by
  have hfinish := (h.readAll hts).bind fun _ _ => Yards.finish
  unfold Yard.result
  cases hs : y.readAll ts >>= Yard.finish with
  | error e =>
    cases hs' : y'.readAll us >>= Yard.finish with
    | error e' =>
      rw [hs, hs'] at hfinish
      exact hfinish
    | ok s' =>
      rw [hs, hs'] at hfinish
      exact hfinish.elim
  | ok s =>
    cases hs' : y'.readAll us >>= Yard.finish with
    | error e' =>
      rw [hs, hs'] at hfinish
      exact hfinish.elim
    | ok s' =>
      rw [hs, hs'] at hfinish
      exact Stacks.root hfinish

/-- Lists that correspond are parsed with results that correspond. -/
theorem parse (h : c.forest [] []) (hts : List.Forall₂ c.token ts us) :
    Agree (fun e e' => e' = e.mapText c.text) (fun a b => c.forest [a] [b])
      (InfixTree.parse ts) (InfixTree.parse us) :=
  Yards.result ⟨.nil, h, rfl⟩ hts

end Correspondence

end InfixTree
