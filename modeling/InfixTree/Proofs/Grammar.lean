import InfixTree.Tree.Basic
import Mathlib.Data.List.Chain

/-! The grammar of infix notation over token kinds, each derivation with its tree.
Sums are made of products, products of powers and powers of atoms; sums and products
are grouped on the left and powers on the right. A phrase stays a phrase when an
operator and an atom are put after it, whatever the operator is, so a list in which
operators and atoms alternate is derivable. -/
namespace InfixTree

namespace Kind

/-- Literals and variables are operands by themselves. -/
def isOperand : Kind → Bool
  | .literal | .variable => true
  | _ => false

/-- The kinds of token that an operand can open with. -/
def startsOperand : Kind → Bool
  | .literal | .variable | .function | .leftParenthesis => true
  | _ => false

/-- The kinds of token that an operand can end with. -/
def endsOperand : Kind → Bool
  | .literal | .variable | .rightParenthesis => true
  | _ => false

theorem isOperand_cases {k : Kind} (h : k.isOperand) : k = .literal ∨ k = .variable := by
  cases k <;> first | exact .inl rfl | exact .inr rfl | cases h

theorem startsOperand_of_isOperand {k : Kind} (h : k.isOperand) : k.startsOperand := by
  cases k <;> first | rfl | cases h

theorem endsOperand_of_isOperand {k : Kind} (h : k.isOperand) : k.endsOperand := by
  cases k <;> first | rfl | cases h

end Kind

/-- The levels of the grammar, from the loosest to the tightest. -/
inductive Rank where
  | sum | product | power | atom
  deriving DecidableEq, Repr

/-- The least precedence of an operator that stands in a phrase outside of all groups. -/
def Rank.floor : Rank → Nat
  | .sum => 2
  | .product => 3
  | .power => 4
  | .atom => 5

namespace Operator

/-- The rank of the phrase that an operation is. -/
def rank : Operator → Rank
  | .add | .subtract => .sum
  | .multiply | .divide => .product
  | .power => .power

/-- The rank of the phrase that the grammar has on a side of an operator. -/
def operandRank : Operator → Side → Rank
  | .add, .left | .subtract, .left => .sum
  | .add, .right | .subtract, .right => .product
  | .multiply, .left | .divide, .left => .product
  | .multiply, .right | .divide, .right => .power
  | .power, .left => .atom
  | .power, .right => .power

end Operator

/-- The tokens are a phrase of the rank, and the tree is how they are read. -/
inductive Derives : Rank → List Token → Tree → Prop
  | sum {l r : List Token} {a b : Tree} {t : Token} {o : Operator} :
    Derives .sum l a → t.kind = .operator o → o = .add ∨ o = .subtract → Derives .product r b →
      Derives .sum (l ++ t :: r) (.operation t a b)
  | ofProduct {l : List Token} {a : Tree} : Derives .product l a → Derives .sum l a
  | product {l r : List Token} {a b : Tree} {t : Token} {o : Operator} :
    Derives .product l a → t.kind = .operator o → o = .multiply ∨ o = .divide →
      Derives .power r b → Derives .product (l ++ t :: r) (.operation t a b)
  | ofPower {l : List Token} {a : Tree} : Derives .power l a → Derives .product l a
  | power {l r : List Token} {a b : Tree} {t : Token} :
    Derives .atom l a → t.kind = .operator .power → Derives .power r b →
      Derives .power (l ++ t :: r) (.operation t a b)
  | ofAtom {l : List Token} {a : Tree} : Derives .atom l a → Derives .power l a
  | operand {t : Token} : t.kind.isOperand → Derives .atom [t] (.leaf t)
  | group {p q : Token} {l : List Token} {a : Tree} :
    p.kind = .leftParenthesis → Derives .sum l a → q.kind = .rightParenthesis →
      Derives .atom (p :: (l ++ [q])) a
  | call {f p q : Token} {l : List Token} {a : Tree} :
    f.kind = .function → p.kind = .leftParenthesis → Derives .sum l a →
      q.kind = .rightParenthesis → Derives .atom (f :: p :: (l ++ [q])) (.application f a)

/-- The tokens are one well-formed infix expression. -/
def Derivable (l : List Token) : Prop := ∃ a, Derives .sum l a

namespace Derives

variable {rank : Rank} {l r : List Token} {a b : Tree}

theorem sum_of_atom (h : Derives .atom l a) : Derives .sum l a := .ofProduct (.ofPower (.ofAtom h))

/-- A tighter phrase can stand where a looser one is wanted. -/
theorem loosen {finer : Rank} (h : Derives finer l a) (hle : rank.floor ≤ finer.floor) :
    Derives rank l a := by
  match rank, finer with
  | .sum, .sum | .product, .product | .power, .power | .atom, .atom => exact h
  | .sum, .product => exact .ofProduct h
  | .sum, .power => exact .ofProduct (.ofPower h)
  | .sum, .atom => exact h.sum_of_atom
  | .product, .power => exact .ofPower h
  | .product, .atom => exact .ofPower (.ofAtom h)
  | .power, .atom => exact .ofAtom h
  | .product, .sum | .power, .sum | .power, .product | .atom, .sum | .atom, .product
  | .atom, .power => exact absurd hle (by decide)

theorem loosen_atom (h : Derives .atom l a) : Derives rank l a :=
  h.loosen (by cases rank <;> decide)

/-- Operands of the ranks that the grammar has around an operator make its phrase. -/
theorem operation {t : Token} {o : Operator} (hl : Derives (o.operandRank .left) l a)
    (ht : t.kind = .operator o) (hr : Derives (o.operandRank .right) r b) :
    Derives o.rank (l ++ t :: r) (.operation t a b) := by
  cases o with
  | add => exact .sum hl ht (.inl rfl) hr
  | subtract => exact .sum hl ht (.inr rfl) hr
  | multiply => exact .product hl ht (.inl rfl) hr
  | divide => exact .product hl ht (.inr rfl) hr
  | power => exact .power hl ht hr

/-- Induction over a derivation with one case for all operators. -/
@[elab_as_elim]
theorem operator_induction {motive : ∀ rank l a, Derives rank l a → Prop} (h : Derives rank l a)
    (loosen : ∀ {rank finer l a} (h : Derives finer l a) (hle : rank.floor ≤ finer.floor),
      motive finer l a h → motive rank l a (h.loosen hle))
    (operation : ∀ {o l r a b} {t : Token} (hl : Derives (o.operandRank .left) l a)
      (ht : t.kind = .operator o) (hr : Derives (o.operandRank .right) r b),
      motive _ _ _ hl → motive _ _ _ hr → motive _ _ _ (hl.operation ht hr))
    (operand : ∀ {t : Token} (ht : t.kind.isOperand), motive _ _ _ (.operand ht))
    (group : ∀ {p q : Token} {l a} (hp : p.kind = .leftParenthesis) (hl : Derives .sum l a)
      (hq : q.kind = .rightParenthesis), motive _ _ _ hl → motive _ _ _ (.group hp hl hq))
    (call : ∀ {f p q : Token} {l a} (hf : f.kind = .function) (hp : p.kind = .leftParenthesis)
      (hl : Derives .sum l a) (hq : q.kind = .rightParenthesis),
      motive _ _ _ hl → motive _ _ _ (.call hf hp hl hq)) : motive rank l a h := by
  induction h with
  | sum hl ht ho hr ihl ihr =>
    rcases ho with rfl | rfl
    · exact operation (o := .add) hl ht hr ihl ihr
    · exact operation (o := .subtract) hl ht hr ihl ihr
  | product hl ht ho hr ihl ihr =>
    rcases ho with rfl | rfl
    · exact operation (o := .multiply) hl ht hr ihl ihr
    · exact operation (o := .divide) hl ht hr ihl ihr
  | power hl ht hr ihl ihr => exact operation (o := .power) hl ht hr ihl ihr
  | ofProduct h ih | ofPower h ih | ofAtom h ih => exact loosen h (by decide) ih
  | operand ht => exact operand ht
  | group hp hl hq ih => exact group hp hl hq ih
  | call hf hp hl hq ih => exact call hf hp hl hq ih

/-! ### Putting an operator and an atom after a phrase -/

theorem power_snoc (h : Derives .power l a) {t : Token} (ht : t.kind = .operator .power)
    (hr : Derives .atom r b) : ∃ c, Derives .power (l ++ t :: r) c := by
  generalize hrank : Rank.power = rank at h
  induction h with
  | power hl hk _ _ ih =>
    obtain ⟨c, hc⟩ := ih hrank
    exact ⟨_, by simpa using Derives.power hl hk hc⟩
  | ofAtom hl => exact ⟨_, .power hl ht (.ofAtom hr)⟩
  | _ => cases hrank

theorem product_snoc (h : Derives .product l a) {t : Token} {o : Operator}
    (ht : t.kind = .operator o) (ho : o ≠ .add ∧ o ≠ .subtract) (hr : Derives .atom r b) :
    ∃ c, Derives .product (l ++ t :: r) c := by
  by_cases hp : o = .power
  · subst hp
    cases h with
    | product hl hk ho' hr' =>
      obtain ⟨c, hc⟩ := power_snoc hr' ht hr
      exact ⟨_, by simpa using Derives.product hl hk ho' hc⟩
    | ofPower hl =>
      obtain ⟨c, hc⟩ := power_snoc hl ht hr
      exact ⟨c, .ofPower hc⟩
  · exact ⟨_, .product h ht (by cases o <;> simp_all) (.ofAtom hr)⟩

/-- Any operator may follow a sum, for it goes to the phrase within it that it binds to. -/
theorem sum_snoc (h : Derives .sum l a) {t : Token} {o : Operator} (ht : t.kind = .operator o)
    (hr : Derives .atom r b) : ∃ c, Derives .sum (l ++ t :: r) c := by
  by_cases ho : o = .add ∨ o = .subtract
  · exact ⟨_, .sum h ht ho (.ofPower (.ofAtom hr))⟩
  · rw [not_or] at ho
    cases h with
    | sum hl hk ho' hr' =>
      obtain ⟨c, hc⟩ := product_snoc hr' ht ho hr
      exact ⟨_, by simpa using Derives.sum hl hk ho' hc⟩
    | ofProduct hl =>
      obtain ⟨c, hc⟩ := product_snoc hl ht ho hr
      exact ⟨c, .ofProduct hc⟩

end Derives

/-! ### Side by side -/

/-- What stands side by side is neither two operands nor an empty pair of parentheses. -/
def Token.Apart (s t : Token) : Prop :=
  ¬ (s.kind.endsOperand ∧ t.kind.startsOperand) ∧
    ¬ (s.kind = .leftParenthesis ∧ t.kind = .rightParenthesis)

instance : DecidableRel Token.Apart := fun _ _ => inferInstanceAs (Decidable (_ ∧ _))

/-- Neighbours in a phrase: they stand apart, and a function stands before its group. -/
def Token.Neighbours (s t : Token) : Prop :=
  s.Apart t ∧ (s.kind = .function → t.kind = .leftParenthesis)

/-- The list is put together of neighbours, and it opens and ends as an operand does. -/
structure Spaced (l : List Token) : Prop where
  neighbours : l.IsChain Token.Neighbours
  first : ∃ t ∈ l.head?, t.kind.startsOperand
  last : ∃ t ∈ l.getLast?, t.kind.endsOperand

namespace Spaced

variable {l r : List Token} {p q t : Token}

theorem singleton (ht : t.kind.isOperand) : Spaced [t] :=
  ⟨by simp, ⟨t, rfl, Kind.startsOperand_of_isOperand ht⟩,
    ⟨t, rfl, Kind.endsOperand_of_isOperand ht⟩⟩

theorem operation (hl : Spaced l) {o : Operator} (ht : t.kind = .operator o)
    (hr : Spaced r) : Spaced (l ++ t :: r) := by
  obtain ⟨f, hf, hf'⟩ := hl.first
  obtain ⟨e, he, he'⟩ := hl.last
  obtain ⟨g, hg, hg'⟩ := hr.last
  have hleft : e.Neighbours t := by
    refine ⟨by simp [Token.Apart, ht, Kind.startsOperand], fun hef => ?_⟩
    simp [hef, Kind.endsOperand] at he'
  have hright : ∀ s : Token, t.Neighbours s := fun s => by
    simp [Token.Neighbours, Token.Apart, ht, Kind.endsOperand]
  refine ⟨?_, ⟨f, by simp [Option.mem_def.1 hf], hf'⟩, ⟨g, ?_, hg'⟩⟩
  · refine List.isChain_append.2 ⟨hl.neighbours,
      List.isChain_cons.2 ⟨fun s _ => hright s, hr.neighbours⟩, fun s hs u hu => ?_⟩
    cases hu
    cases Option.mem_unique hs he
    exact hleft
  · simp [List.getLast?_append, List.getLast?_cons, Option.mem_def.1 hg]

theorem group (hl : Spaced l) (hp : p.kind = .leftParenthesis) (hq : q.kind = .rightParenthesis) :
    Spaced (p :: (l ++ [q])) := by
  obtain ⟨f, hf, hf'⟩ := hl.first
  have hopen : p.Neighbours f := by
    refine ⟨⟨by simp [hp, Kind.endsOperand], ?_⟩, by simp [hp]⟩
    rintro ⟨-, hfq⟩
    simp [hfq, Kind.startsOperand] at hf'
  obtain ⟨g, hg, hg'⟩ := hl.last
  have hclose : g.Neighbours q := by
    refine ⟨⟨by simp [hq, Kind.startsOperand], ?_⟩, ?_⟩
    · rintro ⟨hgp, -⟩
      simp [hgp, Kind.endsOperand] at hg'
    · intro hgf
      simp [hgf, Kind.endsOperand] at hg'
  refine ⟨?_, ⟨p, rfl, by simp [hp, Kind.startsOperand]⟩,
    ⟨q, by simp [List.getLast?_cons], by simp [hq, Kind.endsOperand]⟩⟩
  refine List.isChain_cons.2 ⟨fun s hs => ?_, ?_⟩
  · rw [List.head?_append, Option.mem_def.1 hf] at hs
    cases hs
    exact hopen
  · refine List.isChain_append.2 ⟨hl.neighbours, by simp, fun s hs u hu => ?_⟩
    cases hu
    cases Option.mem_unique hs hg
    exact hclose

theorem call {f : Token} (h : Spaced (p :: l)) (hf : f.kind = .function)
    (hp : p.kind = .leftParenthesis) : Spaced (f :: p :: l) := by
  obtain ⟨g, hg, hg'⟩ := h.last
  have hcall : f.Neighbours p := by simp [Token.Neighbours, Token.Apart, hf, hp, Kind.endsOperand]
  refine ⟨List.isChain_cons.2 ⟨fun s hs => ?_, h.neighbours⟩,
    ⟨f, rfl, by simp [hf, Kind.startsOperand]⟩, ⟨g, ?_, hg'⟩⟩
  · cases hs
    exact hcall
  · rw [List.getLast?_cons, Option.mem_def.1 hg]
    rfl

theorem apart (h : Spaced l) : l.IsChain Token.Apart := h.neighbours.imp fun _ _ h => h.1

end Spaced

theorem Derives.spaced {rank : Rank} {l : List Token} {a : Tree} (h : Derives rank l a) :
    Spaced l := by
  induction h using operator_induction with
  | loosen _ _ ih => exact ih
  | operation _ ht _ ihl ihr => exact ihl.operation ht ihr
  | operand ht => exact .singleton ht
  | group hp _ hq ih => exact ih.group hp hq
  | call hf hp _ hq ih => exact (ih.group hp hq).call hf hp

/-- Every function in the list stands right before an opening parenthesis of the list. -/
def FunctionsCall (l : List Token) : Prop :=
  ∀ before f after, l = before ++ f :: after → f.kind = .function →
    ∃ p ∈ after.head?, p.kind = .leftParenthesis

theorem functionsCall_iff {l : List Token} : FunctionsCall l ↔
    (l.IsChain fun f p => f.kind = .function → p.kind = .leftParenthesis) ∧
      ∀ f ∈ l.getLast?, f.kind ≠ .function := by
  constructor
  · intro h
    refine ⟨List.isChain_iff_forall_rel_of_append_cons_cons.2 fun f p before after hl hf => ?_,
      fun f hmem hf => ?_⟩
    · obtain ⟨q, hq, hkind⟩ := h before f (p :: after) hl hf
      cases hq
      exact hkind
    · obtain ⟨before, rfl⟩ := List.getLast?_eq_some_iff.1 hmem
      obtain ⟨p, hp, -⟩ := h before f [] rfl hf
      cases hp
  · rintro ⟨hchain, hlast⟩ before f after rfl hf
    cases after with
    | nil => exact absurd hf (hlast f (by simp))
    | cons p after => exact ⟨p, rfl, (List.isChain_append_cons_cons.1 hchain).2.1 hf⟩

end InfixTree
