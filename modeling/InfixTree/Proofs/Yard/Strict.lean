import InfixTree.Tokenize
import InfixTree.Proofs.Yard.Marks

/-! Parsing without fallbacks. Where the yard would make do if a mark, an operator or an operand
were missing, a strict run has no answer at all. It turns out to have the answer of the yard
for every list, so the yard never makes do. -/
namespace InfixTree

/-- A result or a failure, or nothing where a fallback would have been taken. -/
abbrev Strict (α : Type) := ExceptT Failure Option α

namespace Strict

variable {α β : Type}

def answer (x : Except Failure α) : Strict α := ExceptT.mk (some x)

def fallback : Strict α := ExceptT.mk none

theorem answer_bind {x : Except Failure α} {f : α → Except Failure β} {g : α → Strict β}
    (h : ∀ a, x = .ok a → g a = answer (f a)) : answer x >>= g = answer (x >>= f) := by
  cases x with
  | error e => rfl
  | ok a => exact h a rfl

/-! ### Operands -/

/-- After the guard there is an operand. -/
def pop (s : Operands) (wanting : Token) : Strict (Tree × Operands) :=
  if s.trees.length ≤ s.floor then answer (s.fail (.missingOperand wanting.value))
  else
    match s.trees with
    | t :: rest => return (t, { s with trees := rest })
    | [] => fallback

def operate (s : Operands) (operator : Token) : Strict Operands := do
  let (right, s) ← pop s operator
  let (left, s) ← pop s operator
  return s.build (.operation operator left right)

def apply (s : Operands) (function : Token) : Strict Operands := do
  let (argument, s) ← pop s function
  return s.build (.application function argument)

def call (s : Operands) (function : Token) : Nat → Strict Operands
  | 0 => answer (s.fail (.missingOperand function.value))
  | 1 => apply s function
  | _ => answer (s.fail (.multipleArguments function.value))

/-- A group that is closed has a mark, which is not above the operands. -/
def closeGroup (s : Operands) : Strict (Nat × Operands) :=
  match s.marks with
  | m :: marks =>
    if m ≤ s.trees.length then return (s.trees.length - m, { s with marks := marks })
    else fallback
  | [] => fallback

/-- One operand is there to be the root if there is one. -/
def root (s : Operands) : Option (Except ParseError Tree) :=
  match s.trees.length with
  | 0 => some (.error .emptyExpression)
  | 1 => s.trees.head?.map .ok
  | count => some (.error (.multipleRoots count))

/-! ### The yard -/

/-- There is an operator to be popped. -/
def popAndReduce : List Token → Operands → Strict Operands
  | t :: _, s => operate s t
  | [], _ => fallback

def reduce (p : Operator → Bool) : List Token → Operands → Strict Yard
  | [], s => return ⟨[], s⟩
  | t :: ts, s =>
    if t.operator?.any p then do reduce p ts (← popAndReduce (t :: ts) s)
    else return ⟨t :: ts, s⟩

def reduceAll (y : Yard) : Strict Yard := reduce (fun _ => true) y.operators y.operands

def pushOperator (y : Yard) (t : Token) (o : Operator) : Strict Yard := do
  let y ← reduce o.yieldsTo y.operators y.operands
  return { y with operators := t :: y.operators }

def leaveGroup (operators : List Token) (operands : Operands) : Strict Yard := do
  let (count, operands) ← closeGroup operands
  match operators with
  | f :: rest =>
    if f.kind = .function then return ⟨rest, ← call operands f count⟩
    else return ⟨f :: rest, operands⟩
  | [] => return ⟨[], operands⟩

def closeYard (y : Yard) : Strict Yard := do
  let y ← reduceAll y
  match y.operators with
  | t :: rest =>
    if t.kind = .leftParenthesis then leaveGroup rest y.operands
    else answer (y.operands.fail .unmatchedParenthesis)
  | [] => answer (y.operands.fail .unmatchedParenthesis)

def step (y : Yard) (t : Token) : Strict Yard :=
  match t.kind with
  | .rightParenthesis => closeYard y
  | .operator o => pushOperator y t o
  | _ => answer (y.step t)

def readAll (y : Yard) (ts : List Token) : Strict Yard := ts.foldlM step y

def finish (y : Yard) : Strict Operands := do
  let y ← reduceAll y
  if y.operators = [] then return y.operands
  else answer (y.operands.fail .unmatchedParenthesis)

def arrange (ts : List Token) : Strict Operands := do
  finish (← readAll {} ts)

def parse (ts : List Token) : Option (Except ParseError Tree) := do
  match ← (arrange ts).run with
  | .ok s => root s
  | .error e => some (.error e.cause)

/-! ### No run comes to a fallback -/

variable {s : Operands} {t : Token} {y : Yard} {ops ts : List Token}

theorem pop_eq : pop s t = answer (s.pop t) := by
  unfold pop Operands.pop
  cases hs : s.trees with
  | nil => simp
  | cons a rest =>
    by_cases h : s.floor ≤ rest.length
    · have hguard : ¬ (a :: rest).length ≤ s.floor := by
        rw [List.length_cons]
        omega
      simp only [hguard, h, if_true, if_false]
      rfl
    · have hguard : (a :: rest).length ≤ s.floor := by
        rw [List.length_cons]
        omega
      simp only [hguard, h, if_true, if_false]

theorem operate_eq : operate s t = answer (s.operate t) := by
  unfold operate Operands.operate
  rw [pop_eq]
  refine answer_bind fun _ _ => ?_
  dsimp only
  rw [pop_eq]
  exact answer_bind fun _ _ => rfl

theorem apply_eq : apply s t = answer (s.apply t) := by
  unfold apply Operands.apply
  rw [pop_eq]
  exact answer_bind fun _ _ => rfl

theorem call_eq {n : Nat} : call s t n = answer (s.call t n) := by
  match n with
  | 0 | _ + 2 => rfl
  | 1 => exact apply_eq

theorem closeGroup_eq (h : Yard.InStep ⟨t :: ops, s⟩) (ht : t.kind = .leftParenthesis) :
    closeGroup s = answer (.ok s.closeGroup) := by
  obtain ⟨m, marks, hm, hle⟩ := h.exists_mark ht
  simp only [closeGroup, hm, hle, if_true, Operands.closeGroup, Operands.floor, List.headD_cons,
    List.tail_cons]
  rfl

theorem root_eq : root s = some s.root := by
  unfold root Operands.root
  match s.trees with
  | [] | [_] | _ :: _ :: _ => rfl

theorem reduce_eq {p : Operator → Bool} : reduce p ops s = answer (Yard.reduce p ops s) := by
  induction ops generalizing s with
  | nil => rfl
  | cons t ts ih =>
    simp only [reduce, Yard.reduce, popAndReduce, operate_eq]
    split_ifs
    · exact answer_bind fun _ _ => ih
    · rfl

theorem pushOperator_eq {o : Operator} : pushOperator y t o = answer (y.pushOperator t o) := by
  unfold pushOperator Yard.pushOperator
  rw [reduce_eq]
  exact answer_bind fun _ _ => rfl

theorem leaveGroup_eq (h : Yard.InStep ⟨t :: ops, s⟩) (ht : t.kind = .leftParenthesis) :
    leaveGroup ops s = answer (Yard.leaveGroup ops s) := by
  unfold leaveGroup Yard.leaveGroup
  rw [closeGroup_eq h ht]
  change (match ops with
    | f :: rest => _
    | [] => _) = _
  cases ops with
  | nil => rfl
  | cons f rest =>
    dsimp only
    split_ifs
    · rw [call_eq]
      exact answer_bind fun _ _ => rfl
    · rfl

theorem closeYard_eq (h : y.InStep) : closeYard y = answer y.closeGroup := by
  unfold closeYard Yard.closeGroup reduceAll Yard.reduceAll
  rw [reduce_eq]
  refine answer_bind ?_
  rintro ⟨ops, s⟩ hr
  have hreduced := h.reduce hr
  cases ops with
  | nil => rfl
  | cons q ops =>
    dsimp only
    split_ifs with hq
    · exact leaveGroup_eq hreduced hq
    · rfl

theorem step_eq (h : y.InStep) : step y t = answer (y.step t) := by
  unfold step
  split
  · rw [closeYard_eq h, Yard.step, ‹t.kind = _›]
  · rw [pushOperator_eq, Yard.step, ‹t.kind = _›]
  · rfl

theorem readAll_eq : readAll {} ts = answer (Yard.readAll {} ts) := by
  induction ts using List.reverseRecOn with
  | nil => rfl
  | append_singleton ts t ih =>
    have hconcat : readAll {} (ts ++ [t]) = readAll {} ts >>= (step · t) := by simp [readAll]
    rw [hconcat, Yard.readAll_concat, ih]
    exact answer_bind fun y hy => step_eq (Yard.inStep_readAll hy)

theorem arrange_eq : arrange ts = answer (InfixTree.arrange ts) := by
  unfold arrange InfixTree.arrange
  rw [readAll_eq]
  refine answer_bind fun y _ => ?_
  unfold finish Yard.finish reduceAll Yard.reduceAll
  rw [reduce_eq]
  refine answer_bind fun z _ => ?_
  split_ifs <;> rfl

end Strict

/-- After any list that is read, each open parenthesis that waits has its mark, the marks do
not decrease from the bottom to the top, and none is above the operands; so parsing comes
to no fallback, whatever the list. -/
theorem marks_in_step (ts : List Token) :
    (∀ y, Yard.readAll {} ts = .ok y →
      y.operands.marks.length = y.operators.countP (·.kind = .leftParenthesis) ∧
      y.operands.marks.Pairwise (· ≥ ·) ∧ ∀ m ∈ y.operands.marks, m ≤ y.operands.trees.length) ∧
    Strict.parse ts = some (parse ts) := by
  constructor
  · intro y hy
    have h := Yard.inStep_readAll hy
    exact ⟨h.count, h.marked.sorted, h.marked.le_length⟩
  · rw [Strict.parse, Strict.arrange_eq]
    unfold parse
    cases arrange ts with
    | error e => rfl
    | ok s => exact Strict.root_eq

/-- Two groups of `3*(f(x)-(` are open in the end, the outer one above `3` and the inner one
above `3` and `f(x)`; the text is refused with no fallback, as is `()*2`. -/
theorem marks_in_step_unclosed :
    let ts := tokenize "3*(f(x)-("
    (∃ y, Yard.readAll {} ts = .ok y ∧ y.operands.marks = [2, 1] ∧
      y.operands.marks.length = y.operators.countP (·.kind = .leftParenthesis) ∧
      y.operands.marks.Pairwise (· ≥ ·) ∧ ∀ m ∈ y.operands.marks, m ≤ y.operands.trees.length) ∧
    Strict.parse ts = some (.error .unmatchedParenthesis) ∧
    Strict.parse (tokenize "()*2") = some (.error (.missingOperand "*")) := by
  intro ts
  obtain ⟨y, hy, hmarks⟩ : ∃ y, Yard.readAll {} ts = .ok y ∧ y.operands.marks = [2, 1] :=
    ⟨_, rfl, rfl⟩
  exact ⟨⟨y, hy, hmarks, (marks_in_step ts).1 y hy⟩, (marks_in_step ts).2,
    (marks_in_step (tokenize "()*2")).2⟩

end InfixTree
