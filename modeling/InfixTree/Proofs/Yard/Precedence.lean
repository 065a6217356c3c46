import InfixTree.Tokenize
import InfixTree.Proofs.Yard.Steps
import Mathlib.Data.Set.List

/-! The order in which operators wait. One that arrives lets go first whatever binds at least as
tightly, unless it is a power, which lets nothing go. So it comes to wait right above an
operator only if it binds more tightly or both are powers, and as all other steps only take from
the top or put something else there, this holds of every two operators that wait one right above
the other. In a stretch of the stack without parentheses and functions it then holds of any two,
and those that are grouped on the left all differ in precedence. -/
namespace InfixTree

namespace Operator

variable {o v w : Operator}

/-- What can wait right above an operator. -/
def WaitsAbove (upper lower : Operator) : Prop :=
  lower.precedence < upper.precedence ∨ upper = .power ∧ lower = .power

theorem waitsAbove_iff : o.WaitsAbove w ↔ o.yieldsTo w = false := by
  rw [WaitsAbove, yieldsTo, Bool.and_eq_false_iff, decide_eq_false_iff_not,
    decide_eq_false_iff_not, Nat.not_le]
  cases o with
  | power => cases w <;> decide
  | add | subtract | multiply | divide => simp [associativity]

theorem WaitsAbove.trans (h : o.WaitsAbove v) (h' : v.WaitsAbove w) : o.WaitsAbove w := by
  rcases h with hlt | ⟨rfl, rfl⟩
  · rcases h' with hlt' | ⟨rfl, rfl⟩
    · exact .inl (hlt'.trans hlt)
    · exact .inl hlt
  · exact h'

instance : Trans WaitsAbove WaitsAbove WaitsAbove := ⟨WaitsAbove.trans⟩

theorem WaitsAbove.precedence_ne (h : o.WaitsAbove w) (ho : o.associativity = .left) :
    o.precedence ≠ w.precedence := by
  rcases h with hlt | ⟨rfl, -⟩
  · exact hlt.ne'
  · cases ho

end Operator

/-- Between two operators there is the order in which they can wait, and none between others. -/
def Kind.WaitsAbove (upper lower : Kind) : Prop :=
  ∀ o w, upper = .operator o → lower = .operator w → o.WaitsAbove w

namespace Yard

variable {p : Operator → Bool} {ops ops' ts : List Token} {s s' : Operands} {y y' : Yard}
  {t : Token} {o : Operator}

/-- What waits, and in which order. -/
structure Ascending (ops : List Token) : Prop where
  waits : ∀ t ∈ ops, t.kind = .function ∨ t.kind = .leftParenthesis ∨ ∃ o, t.kind = .operator o
  chain : ops.IsChain fun upper lower => upper.kind.WaitsAbove lower.kind

namespace Ascending

theorem of_suffix (h : Ascending ops) (hsuffix : ops' <:+ ops) : Ascending ops' where
  waits := fun t ht => h.waits t (hsuffix.subset ht)
  chain := h.chain.suffix hsuffix

theorem reduce (h : Ascending ops) (hr : Yard.reduce p ops s = .ok ⟨ops', s'⟩) :
    Ascending ops' := by
  obtain ⟨taken, rfl, -⟩ := reduce_taken hr
  exact h.of_suffix (List.suffix_append taken ops')

theorem cons (h : Ascending ops) (ht : t.kind = .function ∨ t.kind = .leftParenthesis) :
    Ascending (t :: ops) where
  waits := List.forall_mem_cons.2 ⟨ht.imp_right .inl, h.waits⟩
  chain := by
    refine List.isChain_cons.2 ⟨fun u _ o w ho _ => ?_, h.chain⟩
    rw [ho] at ht
    simp at ht

/-- An operator is put where all that it lets go first has gone. -/
theorem cons_operator (h : Ascending ops) (ht : t.kind = .operator o)
    (hstops : Stops o.yieldsTo ops) : Ascending (t :: ops) where
  waits := List.forall_mem_cons.2 ⟨.inr (.inr ⟨o, ht⟩), h.waits⟩
  chain := by
    refine List.isChain_cons.2 ⟨fun u hu o' w ho' hw => ?_, h.chain⟩
    obtain rfl : o = o' := by
      rw [ht] at ho'
      exact Kind.operator.inj ho'
    exact Operator.waitsAbove_iff.2 (hstops u hu w hw)

/-- Between parentheses and functions there are operators, and the order holds of any two. -/
theorem exists_operators (h : Ascending ops) {stretch : List Token} (hstretch : stretch <:+: ops)
    (hplain : ∀ t ∈ stretch, t.kind ≠ .leftParenthesis ∧ t.kind ≠ .function) :
    ∃ os : List Operator, stretch.map (·.kind) = os.map .operator ∧
      os.Pairwise Operator.WaitsAbove := by
  obtain ⟨os, hos⟩ : stretch.map (·.kind) ∈ Set.range (List.map Kind.operator) := by
    rw [Set.range_list_map]
    refine List.forall_mem_map.2 fun t ht => ?_
    obtain ⟨hopen, hfunction⟩ := hplain t ht
    obtain ⟨o, ho⟩ := ((h.waits t (hstretch.subset ht)).resolve_left hfunction).resolve_left hopen
    exact ⟨o, ho.symm⟩
  have hkinds : (stretch.map (·.kind)).IsChain Kind.WaitsAbove :=
    (List.isChain_map _).2 <| List.IsChain.infix h.chain hstretch
  rw [← hos, List.isChain_map] at hkinds
  have hchain : os.IsChain Operator.WaitsAbove := hkinds.imp fun o w hwaits => hwaits o w rfl rfl
  exact ⟨os, hos.symm, hchain.pairwise⟩

end Ascending

theorem ascending_step (h : Ascending y.operators) (hy : Step y t y') :
    Ascending y'.operators := by
  cases hy with
  | operand => exact h
  | function ht => exact h.cons (.inl ht)
  | openGroup ht => exact h.cons (.inr ht)
  | operator ht hr => exact (h.reduce hr).cons_operator ht (stops_of_reduce hr)
  | closeGroup _ hr => exact (h.reduce hr).of_suffix (List.suffix_cons _ _)
  | closeCall _ hr => exact (h.reduce hr).of_suffix (List.suffix_append [_, _] _)

theorem ascending_readAll (h : readAll {} ts = .ok y) : Ascending y.operators :=
  readAll_induction (P := fun _ y => Ascending y.operators) ⟨by simp, .nil⟩ ascending_step h

end Yard

/-- After any list that is read, an operator that waits right above another one binds more tightly
than that one, or both are powers. So in any stretch of what waits without parentheses and
functions there are only operators, and no two that are grouped on the left have the same
precedence. -/
theorem operators_ascend {ts : List Token} {y : Yard} (h : Yard.readAll {} ts = .ok y) :
    (y.operators.IsChain fun upper lower => ∀ o w, upper.kind = .operator o →
      lower.kind = .operator w → w.precedence < o.precedence ∨ o = .power ∧ w = .power) ∧
    ∀ stretch, stretch <:+: y.operators →
      (∀ t ∈ stretch, t.kind ≠ .leftParenthesis ∧ t.kind ≠ .function) →
      ∃ os : List Operator, stretch.map (·.kind) = os.map .operator ∧
        ((os.filter (·.associativity = .left)).map (·.precedence)).Nodup := by
  have hascending := Yard.ascending_readAll h
  refine ⟨hascending.chain, fun stretch hstretch hplain => ?_⟩
  obtain ⟨os, hos, hpairwise⟩ := hascending.exists_operators hstretch hplain
  refine ⟨os, hos, List.pairwise_map.2 ?_⟩
  refine (hpairwise.filter _).imp_of_mem fun {o w} ho _ hwaits => hwaits.precedence_ne ?_
  simpa using (List.mem_filter.1 ho).2

/-- In `2-3*x^y^f(1+4*` eight tokens wait, and four operators do so below the call. -/
theorem operators_ascend_call :
    let ts := tokenize "2-3*x^y^f(1+4*"
    ∃ y, Yard.readAll {} ts = .ok y ∧
      y.operators.map (·.value) = ["*", "+", "(", "f", "^", "^", "*", "-"] ∧
      (y.operators.IsChain fun upper lower => ∀ o w, upper.kind = .operator o →
        lower.kind = .operator w → w.precedence < o.precedence ∨ o = .power ∧ w = .power) ∧
      ∃ os : List Operator, (y.operators.drop 4).map (·.kind) = os.map .operator ∧
        ((os.filter (·.associativity = .left)).map (·.precedence)).Nodup := by
  intro ts
  obtain ⟨y, hy, hvalues, hkinds⟩ : ∃ y, Yard.readAll {} ts = .ok y ∧
      y.operators.map (·.value) = ["*", "+", "(", "f", "^", "^", "*", "-"] ∧
      (y.operators.drop 4).all fun t => t.kind ≠ .leftParenthesis ∧ t.kind ≠ .function :=
    ⟨_, rfl, rfl, rfl⟩
  obtain ⟨hchain, hstretch⟩ := operators_ascend hy
  refine ⟨y, hy, hvalues, hchain, hstretch _ (List.drop_suffix 4 _).isInfix fun t ht => ?_⟩
  simpa using List.all_eq_true.1 hkinds t ht

end InfixTree
