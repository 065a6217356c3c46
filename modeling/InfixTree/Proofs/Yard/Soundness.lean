import InfixTree.Proofs.Yard.Steps

/-! Parsing is sound for lists in which no two operands stand side by side and no pair
of parentheses is empty. The yard never looks at what a token follows; it fails, in the
end, because the books of a group do not balance. Every operator and every function
that waits in a group costs an operand, so there are never more operands above the mark
of a group than its well-formed beginning would have left there. If there are as many,
the group has begun well, and a group with fewer of them cannot be closed. -/
namespace InfixTree

/-- What has to come next in a group. -/
inductive Want where
  /-- An operand, for nothing has been read. -/
  | first
  | operand
  /-- The parentheses that a function is called with. -/
  | group
  | operator
  deriving DecidableEq, Repr

namespace Want

def after : Kind → Want
  | .literal | .variable | .rightParenthesis => .operator
  | .function => .group
  | .operator _ => .operand
  | .leftParenthesis | .comma => .first

/-- What is wanted after the tokens of a group. -/
def next (content : List Token) : Want := (content.getLast?.map (after ·.kind)).getD .first

/-- The operands of a group less its operators and functions, where it has begun well. -/
def credit : Want → Int
  | first | operand => 0
  | group => -1
  | operator => 1

@[simp] theorem next_nil : next [] = first := rfl

@[simp] theorem next_concat (l : List Token) (t : Token) : next (l ++ [t]) = after t.kind := by
  simp [next]

theorem credit_le_one (w : Want) : w.credit ≤ 1 := by cases w <;> decide

theorem after_of_isOperand {k : Kind} (h : k.isOperand) : after k = operator := by
  cases k <;> simp_all [Kind.isOperand, after]

/-- Only after an operand is another one not wanted. -/
theorem credit_nonpos {w : Want} (h : w ≠ operator) : w.credit ≤ 0 := by
  cases w <;> first | decide | exact absurd rfl h

end Want

/-- The tokens begin a sum, and what is wanted next continues it. -/
inductive Begun : Want → List Token → Prop
  | first : Begun .first []
  | operand {l : List Token} {a : Tree} {t : Token} {o : Operator} :
    Derives .sum l a → t.kind = .operator o → Begun .operand (l ++ [t])
  | group {w : Want} {l : List Token} {f : Token} :
    Begun w l → w.credit = 0 → f.kind = .function → Begun .group (l ++ [f])
  | operator {l : List Token} {a : Tree} : Derives .sum l a → Begun .operator l

namespace Begun

variable {w : Want} {l r : List Token} {a b : Tree} {p q : Token}

theorem atom (h : Begun w l) (hw : w.credit = 0) (hr : Derives .atom r b) :
    Begun .operator (l ++ r) := by
  cases h with
  | first => exact .operator hr.sum_of_atom
  | operand hl ht =>
    obtain ⟨c, hc⟩ := hl.sum_snoc ht hr
    exact .operator (by simpa using hc)
  | group | operator => simp [Want.credit] at hw

/-- A sum in parentheses is an atom by itself or with the function before it. -/
theorem parentheses (h : Begun w l) (hw : w ≠ .operator) (hp : p.kind = .leftParenthesis)
    (ha : Derives .sum r a) (hq : q.kind = .rightParenthesis) :
    Begun .operator (l ++ p :: (r ++ [q])) := by
  cases h with
  | first => exact Begun.first.atom rfl (.group hp ha hq)
  | operand hl ht => exact (Begun.operand hl ht).atom rfl (.group hp ha hq)
  | group hl hw' hf => simpa using hl.atom hw' (.call hf hp ha hq)
  | operator => exact absurd rfl hw

end Begun

/-- The books of a group: its mark and the number of operands on the stack, the operators
and functions that wait in it, and the tokens that have been read of it. -/
structure Books (mark height : Nat) (waiting content : List Token) : Prop where
  waits : ∀ t ∈ waiting, (∃ o, t.kind = .operator o) ∨ t.kind = .function
  mark_le : mark ≤ height
  first : Want.next content = .first → content = [] ∧ waiting = []
  operand : Want.next content = .operand → ∃ t ∈ waiting.head?, ∃ o, t.kind = .operator o
  group : Want.next content = .group → ∃ f ∈ waiting.head?, f.kind = .function
  operator : Want.next content = .operator → mark < height
  bound : (height : Int) ≤ mark + waiting.length + (Want.next content).credit
  begun : (height : Int) = mark + waiting.length + (Want.next content).credit →
    Begun (Want.next content) content

namespace Books

variable {mark height n : Nat} {waiting content : List Token} {t f : Token}

theorem opened (height : Nat) : Books height height [] [] where
  waits := by simp
  mark_le := Nat.le_refl _
  first := fun _ => ⟨rfl, rfl⟩
  operand := by simp
  group := by simp
  operator := by simp
  bound := by simp [Want.credit]
  begun := fun _ => .first

/-- The books once an operand is complete. -/
theorem gained (hwaits : ∀ t ∈ waiting, (∃ o, t.kind = .operator o) ∨ t.kind = .function)
    (hmark : mark ≤ height) (hnext : Want.next content = .operator)
    (hbound : height ≤ mark + waiting.length)
    (hbegun : height = mark + waiting.length → Begun .operator content) :
    Books mark (height + 1) waiting content where
  waits := hwaits
  mark_le := Nat.le_succ_of_le hmark
  first := by simp [hnext]
  operand := by simp [hnext]
  group := by simp [hnext]
  operator := fun _ => Nat.lt_succ_of_le hmark
  bound := by
    simp only [hnext, Want.credit]
    omega
  begun := by
    simp only [hnext, Want.credit]
    intro heq
    exact hbegun (by omega)

theorem push_operand (h : Books mark height waiting content)
    (hw : Want.next content ≠ .operator) (ht : t.kind.isOperand) :
    Books mark (height + 1) waiting (content ++ [t]) := by
  have hb := h.bound
  have hc := Want.credit_nonpos hw
  refine gained h.waits h.mark_le ?_ (by omega) fun heq => ?_
  · rw [Want.next_concat, Want.after_of_isOperand ht]
  · exact (h.begun (by omega)).atom (by omega) (.operand ht)

theorem push_function (h : Books mark height waiting content)
    (hw : Want.next content ≠ .operator) (hf : f.kind = .function) :
    Books mark height (f :: waiting) (content ++ [f]) where
  waits := by
    simp only [List.mem_cons]
    rintro t (rfl | ht)
    · exact .inr hf
    · exact h.waits t ht
  mark_le := h.mark_le
  first := by simp [hf, Want.after]
  operand := by simp [hf, Want.after]
  group := fun _ => ⟨f, rfl, hf⟩
  operator := by simp [hf, Want.after]
  bound := by
    have := h.bound
    have := Want.credit_nonpos hw
    simp only [Want.next_concat, hf, Want.after, Want.credit, List.length_cons]
    omega
  begun := by
    simp only [Want.next_concat, hf, Want.after, Want.credit, List.length_cons]
    intro heq
    have hb := h.bound
    have hc := Want.credit_nonpos hw
    exact .group (h.begun (by omega)) (by omega) hf

/-- An operator that arrives takes operators from the stack before it waits itself. -/
theorem push_operator {taken : List Token} {o : Operator}
    (h : Books mark height (taken ++ waiting) content) (ht : t.kind = .operator o)
    (hn : n + taken.length = height) (hmark : taken ≠ [] → mark < n) :
    Books mark n (t :: waiting) (content ++ [t]) where
  waits := by
    simp only [List.mem_cons]
    rintro u (rfl | hu)
    · exact .inl ⟨o, ht⟩
    · exact h.waits u (List.mem_append_right _ hu)
  mark_le := by
    have := h.mark_le
    by_cases hnil : taken = []
    · subst hnil; simp at hn; omega
    · exact (hmark hnil).le
  first := by simp [ht, Want.after]
  operand := fun _ => ⟨t, rfl, o, ht⟩
  group := by simp [ht, Want.after]
  operator := by simp [ht, Want.after]
  bound := by
    have hb := h.bound
    have hc := (Want.next content).credit_le_one
    simp only [List.length_append] at hb
    simp only [Want.next_concat, ht, Want.after, Want.credit, List.length_cons]
    omega
  begun := by
    simp only [Want.next_concat, ht, Want.after, Want.credit, List.length_cons]
    intro heq
    have hb := h.bound
    have hc := (Want.next content).credit_le_one
    simp only [List.length_append] at hb
    have hw : Want.next content = .operator := by
      by_contra hw
      have := Want.credit_nonpos hw
      omega
    have hbegun := h.begun (by simp only [List.length_append]; omega)
    rw [hw] at hbegun
    cases hbegun with
    | operator hl => exact .operand hl ht

variable {inner : List Token} {a : Tree} {p q : Token}

theorem next_group (hq : q.kind = .rightParenthesis) :
    Want.next (content ++ p :: (inner ++ [q])) = .operator := by
  have : content ++ p :: (inner ++ [q]) = (content ++ p :: inner) ++ [q] := by simp
  rw [this, Want.next_concat, hq]
  rfl

/-- A group that is closed is an operand of the group around it. -/
theorem close_group (h : Books mark height waiting content)
    (hw : Want.next content ≠ .operator) (hf : ∀ f ∈ waiting.head?, f.kind ≠ .function)
    (hp : p.kind = .leftParenthesis) (ha : Derives .sum inner a)
    (hq : q.kind = .rightParenthesis) :
    Books mark (height + 1) waiting (content ++ p :: (inner ++ [q])) := by
  have hb := h.bound
  have hc : (Want.next content).credit = 0 := by
    cases hn : Want.next content with
    | first | operand => rfl
    | group =>
      obtain ⟨f, hmem, hkind⟩ := h.group hn
      exact absurd hkind (hf f hmem)
    | operator => exact absurd hn hw
  refine gained h.waits h.mark_le (next_group hq) (by omega) fun heq => ?_
  exact (h.begun (by omega)).parentheses hw hp ha hq

/-- So is one that a function was waiting for, and the function goes. -/
theorem close_call (h : Books mark height (f :: waiting) content)
    (hw : Want.next content ≠ .operator) (hf : f.kind = .function)
    (hp : p.kind = .leftParenthesis) (ha : Derives .sum inner a)
    (hq : q.kind = .rightParenthesis) :
    Books mark (height + 1) waiting (content ++ p :: (inner ++ [q])) := by
  have hb := h.bound
  have hc : (Want.next content).credit = -1 := by
    cases hn : Want.next content with
    | first => cases (h.first hn).2
    | operand =>
      obtain ⟨t, ht, o, ho⟩ := h.operand hn
      cases ht
      simp [hf] at ho
    | group => rfl
    | operator => exact absurd hn hw
  simp only [List.length_cons] at hb
  refine gained (fun t ht => h.waits t (List.mem_cons_of_mem _ ht)) h.mark_le (next_group hq)
    (by omega) fun heq => ?_
  exact (h.begun (by simp only [List.length_cons]; omega)).parentheses hw hp ha hq

/-- When all that waits in a group is taken, just one operand is left above the mark, and
the group is a sum. -/
theorem close (h : Books mark height waiting content)
    (hops : ∀ t ∈ waiting, ∃ o, t.kind = .operator o) (hn : n + waiting.length = height)
    (hmark : waiting ≠ [] → mark < n) (hfirst : content = [] → mark < n) :
    n = mark + 1 ∧ ∃ a, Derives .sum content a := by
  have hb := h.bound
  have hw : Want.next content = .operator := by
    cases hw : Want.next content with
    | first =>
      have := hfirst (h.first hw).1
      simp only [hw, Want.credit] at hb
      omega
    | operand =>
      obtain ⟨t, ht, -⟩ := h.operand hw
      have := hmark (by rintro rfl; cases ht)
      simp only [hw, Want.credit] at hb
      omega
    | group =>
      obtain ⟨f, hf, hf'⟩ := h.group hw
      obtain ⟨o, ho⟩ := hops f (List.mem_of_mem_head? hf)
      simp [hf'] at ho
    | operator => rfl
  have hlt : mark < n := by
    have := h.operator hw
    by_cases hnil : waiting = []
    · subst hnil; simp at hn; omega
    · exact hmark hnil
  simp only [hw, Want.credit] at hb
  refine ⟨by omega, ?_⟩
  have hbegun := h.begun (by simp only [hw, Want.credit]; omega)
  rw [hw] at hbegun
  cases hbegun with
  | operator hl => exact ⟨_, hl⟩

end Books

/-- The groups around the innermost one: the operators and marks that belong to them and the
tokens read of them. Each has its books, and wants an operand from the group in it. -/
inductive Nested : List Token → List Nat → List Token → Prop
  | outermost : Nested [] [] []
  | group {ops waiting read content : List Token} {marks : List Nat} {height : Nat} {p : Token} :
    Nested ops marks read → Books (marks.headD 0) height waiting content →
      Want.next content ≠ .operator → p.kind = .leftParenthesis →
      Nested (p :: (waiting ++ ops)) (height :: marks) (read ++ content ++ [p])

/-- The yard keeps the books of all open groups. -/
def Yard.Tracks (ts : List Token) (y : Yard) : Prop :=
  ∃ ops waiting read content, y.operators = waiting ++ ops ∧ ts = read ++ content ∧
    Nested ops y.operands.marks read ∧
    Books y.operands.floor y.operands.trees.length waiting content

namespace Yard

variable {ops ops' waiting read content taken ts : List Token} {marks : List Nat} {t : Token}
  {y y' : Yard} {q : Token} {s : Operands}

/-- Reductions stay within the innermost group. -/
theorem taken_of_nested (hops : Nested ops marks read)
    (htaken : ∀ t ∈ taken, ∃ o, t.kind = .operator o) (h : waiting ++ ops = taken ++ ops') :
    ∃ rest, waiting = taken ++ rest ∧ ops' = rest ++ ops := by
  rcases List.append_eq_append_iff.1 h with ⟨more, rfl, hmore⟩ | ⟨rest, rfl, hrest⟩
  · cases hops with
    | outermost =>
      obtain ⟨rfl, rfl⟩ := List.append_eq_nil_iff.1 hmore.symm
      exact ⟨[], by simp, rfl⟩
    | @group _ _ _ _ _ _ p _ _ _ hp =>
      cases more with
      | nil => exact ⟨[], by simp, by simpa using hmore.symm⟩
      | cons q more =>
        obtain ⟨rfl, -⟩ := List.cons.inj hmore
        obtain ⟨o, ho⟩ := htaken p (by simp)
        simp [hp] at ho
  · exact ⟨rest, rfl, hrest⟩

/-- A function on top of the stack waits in the innermost group. -/
theorem head_of_nested {f : Token} (hops : Nested ops marks read) (h : f :: ops' = waiting ++ ops)
    (hf : f.kind = .function) : ∃ rest, waiting = f :: rest ∧ ops' = rest ++ ops := by
  cases waiting with
  | cons g rest =>
    obtain ⟨rfl, hrest⟩ := List.cons.inj h
    exact ⟨rest, rfl, hrest⟩
  | nil =>
    cases hops with
    | outermost => cases h
    | group _ _ _ hp =>
      obtain ⟨rfl, -⟩ := List.cons.inj h
      rw [hf] at hp
      cases hp

/-- What is wanted next forbids the tokens that may not stand there. -/
theorem next_ne_operator (h : (read ++ content ++ [t]).IsChain Token.Apart)
    (ht : t.kind.startsOperand) : Want.next content ≠ .operator := by
  intro hw
  obtain rfl | ⟨l, s, rfl⟩ := List.eq_nil_or_concat' content
  · simp at hw
  · have hst : s.Apart t := by
      have := (List.isChain_append.1 h).2.2 s (by simp) t rfl
      exact this
    refine hst.1 ⟨?_, ht⟩
    rw [Want.next_concat] at hw
    cases hs : s.kind <;> simp_all [Want.after, Kind.endsOperand]

/-- A group that is closed without error was a sum, and it leaves one operand. -/
theorem close_of_nested (hnested : Nested ops y.operands.marks read)
    (hbooks : Books y.operands.floor y.operands.trees.length waiting content)
    (hy : y.operators = waiting ++ ops) (hr : y.reduceAll = .ok ⟨q :: ops', s⟩)
    (hq : q.kind = .leftParenthesis) (ht : t.kind = .rightParenthesis)
    (hts : (read ++ content ++ [t]).IsChain Token.Apart) :
    ∃ ops₀ waiting₀ read₀ content₀ height, ops' = waiting₀ ++ ops₀ ∧
      read = read₀ ++ content₀ ++ [q] ∧ Nested ops₀ s.marks.tail read₀ ∧
      Books (s.marks.tail.headD 0) height waiting₀ content₀ ∧
      Want.next content₀ ≠ .operator ∧ s.trees.length = height + 1 ∧
      ∃ a, Derives .sum content a := by
  obtain ⟨taken, htake, hops, hmarks, hlen, hfloor⟩ := reduce_taken hr
  rw [hy] at htake
  obtain ⟨rest, rfl, hrest⟩ := taken_of_nested hnested hops htake
  -- nothing but the parenthesis is left of the group
  have hnil : rest = [] := by
    cases rest with
    | nil => rfl
    | cons u rest =>
      obtain ⟨rfl, -⟩ := List.cons.inj hrest
      have := hbooks.waits q (by simp)
      simp [hq] at this
  subst hnil
  rw [List.append_nil] at hbooks
  rw [List.nil_append] at hrest
  subst hrest
  rw [hmarks]
  generalize hm : y.operands.marks = marks at hnested
  cases hnested with
  | @group ops₀ waiting₀ read₀ content₀ marks₀ height _ hnested hbooks₀ hw hp =>
    have hempty : content ≠ [] := by
      rintro rfl
      have := (List.isChain_append.1 hts).2.2 q (by simp) t rfl
      exact this.2 ⟨hp, ht⟩
    obtain ⟨hone, ha⟩ := hbooks.close hops hlen hfloor (fun h => absurd h hempty)
    have hfl : y.operands.floor = height := by simp [Operands.floor, hm]
    rw [hfl] at hone
    exact ⟨ops₀, waiting₀, read₀, content₀, height, rfl, rfl, hnested, hbooks₀, hw, hone, ha⟩

theorem tracks_step (h : Step y t y') (hts : (ts ++ [t]).IsChain Token.Apart)
    (hy : Tracks ts y) : Tracks (ts ++ [t]) y' := by
  obtain ⟨ops, waiting, read, content, hy, rfl, hnested, hbooks⟩ := hy
  cases h with
  | operand ht =>
    have hw := next_ne_operator hts (Kind.startsOperand_of_isOperand ht)
    exact ⟨ops, waiting, read, content ++ [t], hy, by simp, hnested, hbooks.push_operand hw ht⟩
  | function hf =>
    have hw := next_ne_operator hts (by simp [hf, Kind.startsOperand])
    exact ⟨ops, t :: waiting, read, content ++ [t], by simp [hy], by simp, hnested,
      hbooks.push_function hw hf⟩
  | openGroup hp =>
    have hw := next_ne_operator hts (by simp [hp, Kind.startsOperand])
    exact ⟨t :: (waiting ++ ops), [], read ++ content ++ [t], [], by simp [hy], by simp,
      .group hnested hbooks hw hp, .opened _⟩
  | @operator o ops' s ht hr =>
    obtain ⟨taken, htake, hops, hmarks, hlen, hfloor⟩ := reduce_taken hr
    rw [hy] at htake
    obtain ⟨rest, rfl, rfl⟩ := taken_of_nested hnested hops htake
    have hmark : s.floor = y.operands.floor := by simp [Operands.floor, hmarks]
    refine ⟨ops, t :: rest, read, content ++ [t], rfl, by simp, hmarks ▸ hnested, ?_⟩
    rw [hmark]
    exact hbooks.push_operator ht hlen hfloor
  | @closeGroup q ops' s ht hr hq hf =>
    obtain ⟨ops₀, waiting₀, read₀, content₀, height, rfl, rfl, hnested, hbooks, hw, hlen, a, ha⟩ :=
      close_of_nested hnested hbooks hy hr hq ht hts
    refine ⟨ops₀, waiting₀, read₀, content₀ ++ q :: (content ++ [t]), rfl, by simp, hnested, ?_⟩
    have hfun : ∀ f ∈ waiting₀.head?, f.kind ≠ .function := fun f hf' =>
      hf f (by simp [Option.mem_def.1 hf'])
    have := hbooks.close_group hw hfun hq ha ht
    rwa [← hlen] at this
  | @closeCall q f ops' s s' ht hr hq hf _ happly =>
    obtain ⟨ops₀, waiting₀, read₀, content₀, height, hops, rfl, hnested, hbooks, hw, hlen, a, ha⟩ :=
      close_of_nested hnested hbooks hy hr hq ht hts
    obtain ⟨waiting₁, rfl, rfl⟩ := head_of_nested hnested hops hf
    obtain ⟨b, rest, htrees, -, rfl⟩ := Operands.apply_eq_ok.1 happly
    refine ⟨ops₀, waiting₁, read₀, content₀ ++ q :: (content ++ [t]), rfl, by simp, hnested, ?_⟩
    have := hbooks.close_call hw hf hq ha ht
    rw [← hlen] at this
    have hlen' : s.trees.length = rest.length + 1 := congrArg List.length htrees
    rwa [hlen'] at this

theorem tracks_start : Tracks [] {} :=
  ⟨[], [], [], [], rfl, rfl, .outermost, .opened 0⟩

theorem tracks_readAll (h : readAll {} ts = .ok y) (hts : ts.IsChain Token.Apart) :
    Tracks ts y := by
  refine readAll_induction (P := fun us z => us.IsChain Token.Apart → Tracks us z)
    (fun _ => tracks_start) ?_ h hts
  intro us u z z' ih hz hus
  exact tracks_step hz hus (ih (List.isChain_append.1 hus).1)

end Yard

/-- A list that is parsed, with its operands kept apart and its parentheses not empty, is
derived from the grammar. -/
theorem derivable_of_parse {ts : List Token} {a : Tree} (h : parse ts = .ok a)
    (hts : ts.IsChain Token.Apart) : Derivable ts := by
  obtain ⟨y, s, hread, hr, hs⟩ := parse_eq_ok.1 h
  obtain ⟨ops, waiting, read, content, hy, rfl, hnested, hbooks⟩ := Yard.tracks_readAll hread hts
  obtain ⟨taken, htake, hops, hmarks, hlen, hfloor⟩ := Yard.reduce_taken hr
  rw [hy] at htake
  obtain ⟨rest, rfl, hrest⟩ := Yard.taken_of_nested hnested hops htake
  obtain ⟨rfl, rfl⟩ := List.append_eq_nil_iff.1 hrest.symm
  generalize hm : y.operands.marks = marks at hnested
  cases hnested with
  | outermost =>
    have hfl : y.operands.floor = 0 := by simp [Operands.floor, hm]
    have hone : s.trees.length = 1 := by simp [hs]
    rw [List.append_nil] at hbooks
    exact (hbooks.close hops hlen hfloor (fun _ => by omega)).2

end InfixTree
