import InfixTree.Proofs.Yard.Steps

/-! Parsing is complete. Reading a phrase of the grammar may leave some of its operators
waiting, but whatever lets operators of its rank go brings the yard to where the tree
of the phrase is the newest operand. The end of the list, the end of a group and a later
operator that binds no more tightly all do so. -/
namespace InfixTree

/-- The nodes with operands, each after those below it and the left before the right. -/
def Tree.compounds : Tree → List Tree
  | .leaf _ => []
  | .application t a => a.compounds ++ [.application t a]
  | .operation t l r => l.compounds ++ r.compounds ++ [.operation t l r]

/-- Operators of a lower precedence than this may wait below a phrase of the rank. Powers
wait below powers, for they are grouped on the right. -/
def Rank.ceiling : Rank → Nat
  | .sum => 2
  | .product => 3
  | .power | .atom => 5

/-- Whether chains of an operator make phrases of the rank, grouped on the left. -/
def Rank.Chains (rank : Rank) (o : Operator) : Prop :=
  o.precedence = rank.floor ∧ o.associativity = .left

theorem Rank.chains_sum {o : Operator} (h : o = .add ∨ o = .subtract) : Rank.sum.Chains o := by
  rcases h with rfl | rfl <;> exact ⟨rfl, rfl⟩

theorem Rank.chains_product {o : Operator} (h : o = .multiply ∨ o = .divide) :
    Rank.product.Chains o := by
  rcases h with rfl | rfl <;> exact ⟨rfl, rfl⟩

theorem Operator.precedence_lt (o : Operator) : o.precedence < Rank.floor .atom := by
  cases o <;> decide

namespace Operands

variable {s : Operands} {a b : Tree}

/-- The operands once a tree has been built above them. -/
def gain (s : Operands) (a : Tree) : Operands :=
  { s with trees := a :: s.trees, built := a.compounds.reverse ++ s.built }

theorem Intact.gain (h : s.Intact) : (s.gain a).Intact := Nat.le_succ_of_le h

theorem intact_openGroup : s.openGroup.Intact := Nat.le_refl _

theorem operate_gain (h : s.Intact) (t : Token) :
    ((s.gain a).gain b).operate t = .ok (s.gain (.operation t a b)) := by
  refine operate_eq_ok.2 ⟨b, a, s.trees, rfl, h, ?_⟩
  simp [Operands.gain, build, Tree.compounds]

theorem apply_gain (h : s.Intact) (f : Token) :
    (s.gain a).apply f = .ok (s.gain (.application f a)) := by
  refine apply_eq_ok.2 ⟨a, s.trees, rfl, h, ?_⟩
  simp [Operands.gain, build, Tree.compounds]

/-- A group that held one tree leaves it to the group around it. -/
theorem closeGroup_gain : (s.openGroup.gain a).closeGroup = (1, s.gain a) := by
  simp [closeGroup, openGroup, Operands.gain, floor]

end Operands

namespace Yard

variable {m n : Nat} {t p q : Token} {o : Operator} {ops l r : List Token} {s : Operands}
  {y z : Yard} {a b : Tree}

/-- A phrase whose operators have at least the precedence can be read above the stack. -/
def Admits (n : Nat) (ops : List Token) : Prop :=
  ∀ t ∈ ops.head?, t.kind ≠ .function ∧ ∀ o, t.kind = .operator o → o.precedence < n

/-- Letting all operators of at least the precedence go does the same to both yards. -/
def AmountsTo (n : Nat) (y z : Yard) : Prop :=
  ∀ p : Operator → Bool, (∀ o, n ≤ o.precedence → p o) →
    reduce p y.operators y.operands = reduce p z.operators z.operands

theorem Admits.mono (h : Admits m ops) (hmn : m ≤ n) : Admits n ops := fun t ht =>
  ⟨(h t ht).1, fun o ho => Nat.lt_of_lt_of_le ((h t ht).2 o ho) hmn⟩

theorem admits_operator (ht : t.kind = .operator o) (h : o.precedence < n) :
    Admits n (t :: ops) := by
  simp only [Admits, List.head?_cons, Option.mem_def, Option.some.injEq, forall_eq', ht]
  exact ⟨by simp, fun w hw => by cases hw; exact h⟩

theorem admits_leftParenthesis (hp : p.kind = .leftParenthesis) : Admits n (p :: ops) := by
  simp [Admits, hp]

namespace AmountsTo

theorem refl : AmountsTo n y y := fun _ _ => rfl

theorem mono (h : AmountsTo n y z) (hmn : m ≤ n) : AmountsTo m y z := fun p hp =>
  h p fun o ho => hp o (hmn.trans ho)

/-- An operator that makes those of a phrase go finds the tree of the phrase. -/
theorem step_operator (h : AmountsTo n y z) (ht : t.kind = .operator o)
    (ho : ∀ w, n ≤ w.precedence → o.yieldsTo w) : y.step t = z.step t := by
  simp only [step, ht, pushOperator, h _ ho]

theorem reduceAll (h : AmountsTo n y z) : y.reduceAll = z.reduceAll := h _ fun _ _ => rfl

theorem step_rightParenthesis (h : AmountsTo n y z) (hq : q.kind = .rightParenthesis) :
    y.step q = z.step q := by
  simp only [step, hq, Yard.closeGroup, h.reduceAll]

/-- An operator that goes as well takes both of its operands along. -/
theorem operate (h : AmountsTo n y ⟨t :: ops, (s.gain a).gain b⟩) (hmn : m ≤ n)
    (ht : t.kind = .operator o) (hm : m ≤ o.precedence) (hs : s.Intact) :
    AmountsTo m y ⟨ops, s.gain (.operation t a b)⟩ := fun p hp => by
  rw [h p fun w hw => hp w (hmn.trans hw), reduce_operator ht (hp o hm), Operands.operate_gain hs,
    ok_bind]

end AmountsTo

theorem leaveGroup_of_admits (h : Admits n ops) :
    leaveGroup ops (s.openGroup.gain a) = .ok ⟨ops, s.gain a⟩ := by
  unfold leaveGroup
  rw [Operands.closeGroup_gain]
  cases ops with
  | nil => rfl
  | cons f rest => simp [(h f rfl).1, pure, Except.pure]

theorem leaveGroup_function {f : Token} (hf : f.kind = .function) (hs : s.Intact) :
    leaveGroup (f :: ops) (s.openGroup.gain a) = .ok ⟨ops, s.gain (.application f a)⟩ := by
  unfold leaveGroup
  rw [Operands.closeGroup_gain]
  simp [hf, Operands.call, Operands.apply_gain hs, ok_bind, pure, Except.pure]

theorem stops_of_admits (h : Admits o.precedence ops) : Stops o.yieldsTo ops := fun t ht w hw => by
  have := (h t ht).2 w hw
  simp only [Operator.yieldsTo, Bool.and_eq_false_iff, decide_eq_false_iff_not]
  omega

/-- Operators that are grouped on the left make every one that binds as tightly go. -/
theorem yieldsTo_of_le (hleft : o.associativity = .left) {w : Operator}
    (h : o.precedence ≤ w.precedence) : o.yieldsTo w := by
  simp [Operator.yieldsTo, hleft, h]

/-- Reading a phrase above a stack and operands amounts to gaining its tree. -/
def Reads (rank : Rank) (l : List Token) (a : Tree) (ops : List Token) (s : Operands) : Prop :=
  ∃ y, readAll ⟨ops, s⟩ l = .ok y ∧ AmountsTo rank.floor y ⟨ops, s.gain a⟩

/-- A phrase that is read as its tree wherever a phrase of its rank can be. -/
def Readable (rank : Rank) (l : List Token) (a : Tree) : Prop :=
  ∀ ops s, s.Intact → Admits rank.ceiling ops → Reads rank l a ops s

/-- An operator between two phrases finds the first one built, waits while the second one
is read and goes with it. -/
theorem Reads.operation {left right rank : Rank} (hl : Reads left l a ops s)
    (ht : t.kind = .operator o) (hyield : ∀ w, left.floor ≤ w.precedence → o.yieldsTo w)
    (hstops : Stops o.yieldsTo ops) (hr : Reads right r b (t :: ops) (s.gain a))
    (hfloor : rank.floor ≤ right.floor) (ho : rank.floor ≤ o.precedence) (hs : s.Intact) :
    Reads rank (l ++ t :: r) (.operation t a b) ops s := by
  obtain ⟨y, hy, hya⟩ := hl
  obtain ⟨z, hz, hzb⟩ := hr
  have hstep : y.step t = .ok ⟨t :: ops, s.gain a⟩ := by
    rw [hya.step_operator ht hyield]
    simp only [step, ht]
    exact pushOperator_eq_ok.2 ⟨_, _, reduce_of_stops hstops, rfl⟩
  refine ⟨z, ?_, hzb.operate hfloor ht ho hs⟩
  rw [readAll_append, hy, ok_bind, readAll_cons, hstep, ok_bind, hz]

namespace Readable

variable {rank finer : Rank}

theorem mono (h : Readable finer l a) (hfloor : rank.floor ≤ finer.floor)
    (hceiling : rank.ceiling ≤ finer.ceiling) : Readable rank l a := fun ops s hs hops => by
  obtain ⟨y, hy, hya⟩ := h ops s hs (hops.mono hceiling)
  exact ⟨y, hy, hya.mono hfloor⟩

/-- An operator that is grouped on the left continues a phrase of its own rank. -/
theorem chain (hl : Readable rank l a) (ht : t.kind = .operator o) (ho : rank.Chains o)
    (hr : Readable finer r b) (hrank : rank.ceiling = rank.floor)
    (hfloor : rank.floor ≤ finer.floor) (hceiling : rank.floor < finer.ceiling) :
    Readable rank (l ++ t :: r) (.operation t a b) := fun ops s hs hops => by
  have hyield : ∀ w, rank.floor ≤ w.precedence → o.yieldsTo w := fun w hw =>
    yieldsTo_of_le ho.2 (ho.1 ▸ hw)
  have hstops : Stops o.yieldsTo ops := stops_of_admits (ho.1 ▸ hrank ▸ hops)
  have hadmits : Admits finer.ceiling (t :: ops) := admits_operator ht (ho.1 ▸ hceiling)
  exact (hl ops s hs hops).operation ht hyield hstops (hr _ _ hs.gain hadmits) hfloor ho.1.ge hs

/-- Powers are grouped on the right, so their operators make nothing go. -/
theorem power (hl : Readable .atom l a) (ht : t.kind = .operator .power)
    (hr : Readable .power r b) : Readable .power (l ++ t :: r) (.operation t a b) :=
  fun ops s hs hops => by
  have hyield : ∀ w, Rank.floor .atom ≤ w.precedence → Operator.power.yieldsTo w := fun w hw =>
    absurd w.precedence_lt (Nat.not_lt.2 hw)
  have hstops : Stops Operator.power.yieldsTo ops := fun _ _ _ _ => rfl
  have hadmits : Admits (Rank.ceiling .power) (t :: ops) := admits_operator ht (by decide)
  exact (hl ops s hs hops).operation ht hyield hstops (hr _ _ hs.gain hadmits) (Nat.le_refl _)
    (Nat.le_refl _) hs

theorem operand (ht : t.kind.isOperand) : Readable .atom [t] (.leaf t) := fun ops s _ _ => by
  have hstep : (⟨ops, s⟩ : Yard).step t = .ok ⟨ops, s.gain (.leaf t)⟩ := by
    unfold step
    split <;> simp_all [Kind.isOperand, Operands.push, Operands.gain, Tree.compounds]
  exact ⟨_, by rw [readAll_cons, hstep, ok_bind]; rfl, .refl⟩

/-- A sum between parentheses leaves its tree, and the parentheses go. -/
theorem readAll_group (h : Readable .sum l a) (hp : p.kind = .leftParenthesis)
    (hq : q.kind = .rightParenthesis) :
    readAll ⟨ops, s⟩ (p :: (l ++ [q])) = leaveGroup ops (s.openGroup.gain a) := by
  obtain ⟨y, hy, hya⟩ := h (p :: ops) _ s.intact_openGroup (admits_leftParenthesis hp)
  have hopen : (⟨ops, s⟩ : Yard).step p = .ok ⟨p :: ops, s.openGroup⟩ := by simp only [step, hp]
  have hall : (⟨p :: ops, s.openGroup.gain a⟩ : Yard).reduceAll =
      .ok ⟨p :: ops, s.openGroup.gain a⟩ :=
    reduce_of_stops (by simp [Stops, hp])
  have hclose : y.step q = leaveGroup ops (s.openGroup.gain a) := by
    rw [hya.step_rightParenthesis hq]
    simp only [step, hq, closeGroup, hall, ok_bind, hp, if_true]
  rw [readAll_cons, hopen, ok_bind, readAll_append, hy, ok_bind, readAll_cons, hclose]
  exact bind_pure _

theorem group (h : Readable .sum l a) (hp : p.kind = .leftParenthesis)
    (hq : q.kind = .rightParenthesis) : Readable .atom (p :: (l ++ [q])) a := fun _ _ _ hops =>
  ⟨_, (h.readAll_group hp hq).trans (leaveGroup_of_admits hops), .refl⟩

theorem call {f : Token} (h : Readable .sum l a) (hf : f.kind = .function)
    (hp : p.kind = .leftParenthesis) (hq : q.kind = .rightParenthesis) :
    Readable .atom (f :: p :: (l ++ [q])) (.application f a) := fun ops s hs _ => by
  have hstep : (⟨ops, s⟩ : Yard).step f = .ok ⟨f :: ops, s⟩ := by simp only [step, hf]
  refine ⟨_, ?_, .refl⟩
  rw [readAll_cons, hstep, ok_bind, h.readAll_group hp hq, leaveGroup_function hf hs]

end Readable

theorem readable_of_derives {rank : Rank} (h : Derives rank l a) : Readable rank l a := by
  induction h with
  | sum _ ht ho _ ihl ihr =>
    exact ihl.chain ht (Rank.chains_sum ho) ihr rfl (by decide) (by decide)
  | product _ ht ho _ ihl ihr =>
    exact ihl.chain ht (Rank.chains_product ho) ihr rfl (by decide) (by decide)
  | power _ ht _ ihl ihr => exact ihl.power ht ihr
  | ofProduct _ ih => exact ih.mono (by decide) (by decide)
  | ofPower _ ih => exact ih.mono (by decide) (by decide)
  | ofAtom _ ih => exact ih.mono (by decide) (by decide)
  | operand ht => exact .operand ht
  | group hp _ hq ih => exact ih.group hp hq
  | call hf hp _ hq ih => exact ih.call hf hp hq

end Yard

/-- A phrase that is read in an empty yard is the only operand at the end. -/
theorem Yard.Readable.parse_eq {l : List Token} {a : Tree} (h : Yard.Readable .sum l a) :
    parse l = .ok a := by
  obtain ⟨y, hy, hya⟩ := h [] {} (Nat.le_refl _) (by simp [Yard.Admits])
  exact parse_eq_ok.2 ⟨y, _, hy, hya.reduceAll, rfl⟩

/-- Every list derived from the grammar is parsed, and parsed as its tree. -/
theorem parse_of_derives {l : List Token} {a : Tree} (h : Derives .sum l a) :
    parse l = .ok a := (Yard.readable_of_derives h).parse_eq

/-- `x-f(y)^2`: the call is raised before the difference is taken. -/
theorem parse_of_derives_difference :
    let x : Token := ⟨.ofLetter 'x', 1⟩
    let minus : Token := ⟨.ofOperator .subtract, 2⟩
    let f : Token := ⟨.ofName ['f'], 3⟩
    let p : Token := ⟨.leftParenthesis, 4⟩
    let y : Token := ⟨.ofLetter 'y', 5⟩
    let q : Token := ⟨.rightParenthesis, 6⟩
    let power : Token := ⟨.ofOperator .power, 7⟩
    let two : Token := ⟨.ofDigits ['2'], 8⟩
    let tree := .operation minus (.leaf x) (.operation power (.application f (.leaf y)) (.leaf two))
    Derives .sum [x, minus, f, p, y, q, power, two] tree ∧
      parse [x, minus, f, p, y, q, power, two] = .ok tree := by
  intro x minus f p y q power two tree
  have hcall : Derives .atom [f, p, y, q] (.application f (.leaf y)) :=
    .call rfl rfl (.sum_of_atom (.operand rfl)) rfl
  have hpower : Derives .power [f, p, y, q, power, two]
      (.operation power (.application f (.leaf y)) (.leaf two)) :=
    .power hcall rfl (.ofAtom (.operand rfl))
  have hsum : Derives .sum [x, minus, f, p, y, q, power, two] tree :=
    .sum (.sum_of_atom (.operand rfl)) rfl (.inr rfl) (.ofPower hpower)
  exact ⟨hsum, parse_of_derives hsum⟩

end InfixTree
