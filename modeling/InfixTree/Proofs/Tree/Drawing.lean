import InfixTree.Proofs.Regeneration
import InfixTree.Proofs.Tree.Outliner
import InfixTree.Proofs.Tree.Places

/-! What the drawing of a tree shows. Its lines are those of the places in preorder, and the
margin of a line tells for each node on the way whether a sibling comes after it. An outline
has no kinds, but in a tree that was read from a text the value of a node and the number of
its operands leave one kind only; so a drawing shows all of a tree but its ids. -/
namespace InfixTree

theorem Piece.own_not (b : Bool) : own (!b) = if b then branch else corner := by
  cases b <;> rfl

theorem Piece.below_not (b : Bool) : below (!b) = if b then bar else gap := by
  cases b <;> rfl

namespace Tree

variable {t u c : Tree} {p q : Place} {s : Side} {last : Bool} {line : DrawnLine}

/-! ### Margins -/

/-- A sibling comes after the node at the place. Nothing comes after the root. -/
def followed (t : Tree) (p : Place) : Bool :=
  p.getLast? = some .left && (t.subtree? (p.dropLast ++ [.right])).isSome

/-- The line shows the node at the place: its value after one piece for each node on the way,
the root among them, and a last one of its own. -/
structure DrawnAt (t : Tree) (p : Place) (line : DrawnLine) : Prop where
  value : (t.subtree? p).map Tree.value = some line.value
  length : line.margin.length = p.length + 1
  above : ∀ d < p.length,
    line.margin[d]? = some (if t.followed (p.take d) then .bar else .gap)
  own : line.margin[p.length]? = some (if t.followed p then .branch else .corner)

/-- No sibling comes after the node, `last` telling this of the root. -/
def lastAt (t : Tree) (last : Bool) (p : Place) : Bool := if p = [] then last else !t.followed p

/-- What stands in the margin before the node at the place. -/
def marginAt (t : Tree) (last : Bool) (p : Place) : List Piece :=
  (List.range p.length).map (fun d => .below (t.lastAt last (p.take d))) ++
    [.own (t.lastAt last p)]

theorem lastAt_cons (hc : t.child? s = some c) (last : Bool) (p : Place) :
    t.lastAt last (s :: p) = c.lastAt (!t.followed [s]) p := by
  cases p with
  | nil => rfl
  | cons s' p =>
    have hfollowed : t.followed (s :: s' :: p) = c.followed (s' :: p) := by
      simp [followed, subtree?_cons, hc]
    simp [lastAt, hfollowed]

/-- Below a child are the pieces of the child's own places, after the one of the root. -/
theorem marginAt_cons (hc : t.child? s = some c) (last : Bool) (p : Place) :
    t.marginAt last (s :: p) = .below last :: c.marginAt (!t.followed [s]) p := by
  simp only [marginAt, List.length_cons, List.range_succ_eq_map, List.map_cons, List.map_map,
    List.cons_append, lastAt_cons hc]
  congr 2
  refine List.map_congr_left fun d _ => ?_
  rw [Function.comp_apply, List.take_succ_cons, lastAt_cons hc]

theorem lastAt_true (t : Tree) (p : Place) : t.lastAt true p = !t.followed p := by
  unfold lastAt
  split_ifs with h
  · subst h
    rfl
  · rfl

theorem drawnAt_of_margin (hvalue : (t.subtree? p).map Tree.value = some line.value)
    (hmargin : line.margin = t.marginAt true p) : t.DrawnAt p line where
  value := hvalue
  length := by simp [hmargin, marginAt]
  above := fun d hd => by
    rw [hmargin, marginAt, List.getElem?_append_left (by simpa using hd)]
    simp [hd, lastAt_true, Piece.below_not]
  own := by
    rw [hmargin, marginAt, List.getElem?_append_right (by simp)]
    simp [lastAt_true, Piece.own_not]

/-- The line of a node in a margin that leads to the root. -/
def Shown (t : Tree) (margin : List Piece) (last : Bool) (p : Place) (line : DrawnLine) : Prop :=
  (t.subtree? p).map Tree.value = some line.value ∧ line.margin = margin ++ t.marginAt last p

theorem Shown.of_child {margin : List Piece} (hc : t.child? s = some c)
    (h : c.Shown (margin ++ [.below last]) (!t.followed [s]) p line) :
    t.Shown margin last (s :: p) line := by
  refine ⟨?_, ?_⟩
  · rw [subtree?_cons, hc]
    exact h.1
  · rw [h.2, marginAt_cons hc, List.append_assoc]
    rfl

/-- The lines of a subtree show its places in preorder. -/
theorem shown_drawnLines (t : Tree) (margin : List Piece) (last : Bool) :
    List.Forall₂ (t.Shown margin last) t.places (t.drawnLines margin last) := by
  induction t generalizing margin last with
  | leaf t => exact .cons ⟨rfl, rfl⟩ .nil
  | application t a ih =>
    refine .cons ⟨rfl, rfl⟩ (List.forall₂_map_left_iff.2 ?_)
    exact (ih _ true).imp fun _ _ h => h.of_child rfl
  | operation t l r ihl ihr =>
    refine .cons ⟨rfl, rfl⟩ (List.rel_append (List.forall₂_map_left_iff.2 ?_)
      (List.forall₂_map_left_iff.2 ?_))
    · exact (ihl _ false).imp fun _ _ h => h.of_child rfl
    · exact (ihr _ true).imp fun _ _ h => h.of_child rfl

theorem drawnAt_drawnLines (t : Tree) :
    List.Forall₂ t.DrawnAt t.places (t.drawnLines [] true) :=
  (t.shown_drawnLines [] true).imp fun _ _ h => drawnAt_of_margin h.1 h.2

/-! ### Reading a drawing -/

/-- The item of a valid tree has the whole tree but for its ids. -/
theorem anonymous_eq_of_outlined {next next' : Outline} (ht : t.Valid) (hu : u.Valid)
    (h : t.outlined next = u.outlined next') : t.anonymous = u.anonymous ∧ next = next' := by
  induction t generalizing u next next' with
  | leaf t =>
    cases u with
    | leaf u =>
      obtain ⟨hvalue, -, hnext⟩ := Outline.item.inj h
      have hkind := ht.2.operand_kind_eq hu.2 ht.1 hu.1 hvalue
      exact ⟨congrArg leaf (Token.anonymous_eq hkind hvalue), hnext⟩
    | application u b => exact absurd (Outline.item.inj h).2.1.symm (outlined_ne_nil b _)
    | operation u l r => exact absurd (Outline.item.inj h).2.1.symm (outlined_ne_nil l _)
  | application t a ih =>
    obtain ⟨hkt, -, ha⟩ := ht
    cases u with
    | leaf u => exact absurd (Outline.item.inj h).2.1 (outlined_ne_nil a _)
    | application u b =>
      obtain ⟨hku, -, hb⟩ := hu
      obtain ⟨hvalue, hbelow, hnext⟩ := Outline.item.inj h
      have htoken := Token.anonymous_eq (hkt.trans hku.symm) hvalue
      exact ⟨congrArg₂ application htoken (ih ha hb hbelow).1, hnext⟩
    | operation u l r =>
      -- nothing comes after the argument, but the right operand comes after the left one
      have hright := (ih ha hu.2.2.1 (Outline.item.inj h).2.1).2
      exact absurd hright.symm (outlined_ne_nil r _)
  | operation t a b iha ihb =>
    obtain ⟨⟨o, hkt⟩, hft, ha, hb⟩ := ht
    cases u with
    | leaf u => exact absurd (Outline.item.inj h).2.1 (outlined_ne_nil a _)
    | application u l =>
      have hright := (iha ha hu.2.2 (Outline.item.inj h).2.1).2
      exact absurd hright (outlined_ne_nil b _)
    | operation u l r =>
      obtain ⟨⟨o', hku⟩, hfu, hl, hr⟩ := hu
      obtain ⟨hvalue, hbelow, hnext⟩ := Outline.item.inj h
      obtain ⟨hleft, hbelow⟩ := iha ha hl hbelow
      obtain ⟨hright, -⟩ := ihb hb hr hbelow
      have htoken := Token.anonymous_eq (hft.operator_kind_eq hfu hkt hku hvalue) hvalue
      refine ⟨?_, hnext⟩
      change operation t.anonymous a.anonymous b.anonymous =
        operation u.anonymous l.anonymous r.anonymous
      rw [htoken, hleft, hright]

theorem unbroken_drawnLines (h : t.Valid) (margin : List Piece) (last : Bool) :
    ∀ line ∈ t.drawnLines margin last, Text.Unbroken line.value := by
  induction t generalizing margin last with
  | leaf t => exact List.forall_mem_singleton.2 h.2.unbroken
  | application t a ih =>
    obtain ⟨-, hfits, ha⟩ := h
    exact List.forall_mem_cons.2 ⟨hfits.unbroken, ih ha _ _⟩
  | operation t l r ihl ihr =>
    obtain ⟨-, hfits, hl, hr⟩ := h
    exact List.forall_mem_cons.2
      ⟨hfits.unbroken, List.forall_mem_append.2 ⟨ihl hl _ _, ihr hr _ _⟩⟩

/-- Valid trees are read back from their drawings. -/
theorem anonymous_eq_of_drawing (ht : t.Valid) (hu : u.Valid) (h : t.drawing = u.drawing) :
    t.anonymous = u.anonymous := by
  rw [drawing_eq, drawing_eq] at h
  have hunbroken : ∀ a : Tree, a.Valid →
      ∀ line ∈ (a.outlined .nil).drawnLines [], Text.Unbroken line.value := by
    intro a ha
    rw [drawnLines_outlined, Outline.drawnLines, List.append_nil]
    exact unbroken_drawnLines ha _ _
  have houtline := Outline.eq_of_drawing (by decide) (hunbroken t ht) (hunbroken u hu) h
  exact (anonymous_eq_of_outlined ht hu houtline).1

end Tree

/-- A library that does what it is told draws every tree that is read from a text as one line
for each node in preorder, under a heading; and only trees that are alike but for their ids
are drawn alike. -/
theorem drawing_read_back (D : Outliner) (hD : D.Faithful) :
    (∀ text t, parseText text = .ok t → D.render t = .ok t.drawing ∧
      ∃ lines : List DrawnLine,
        t.drawing =
          String.join (("expression" :: lines.map DrawnLine.text).map (· ++ "\n")) ∧
        (∀ line ∈ lines, Text.Unbroken line.text) ∧
        t.Preordered t.places ∧ List.Forall₂ t.DrawnAt t.places lines) ∧
    (∀ piece : Piece, piece.text.toList.length = 3) ∧
    ∀ text text' t u, parseText text = .ok t → parseText text' = .ok u →
      D.render t = D.render u → t.anonymous = u.anonymous := by
  refine ⟨fun text t ht => ?_, Piece.length_text, fun text text' t u ht hu h => ?_⟩
  · refine ⟨hD.render_eq t, t.drawnLines [] true, rfl, fun line hline => ?_,
      t.preordered_places, t.drawnAt_drawnLines⟩
    exact DrawnLine.unbroken_text
      (Tree.unbroken_drawnLines (valid_of_parseText ht) _ _ line hline)
  · rw [hD.render_eq, hD.render_eq] at h
    exact Tree.anonymous_eq_of_drawing (valid_of_parseText ht) (valid_of_parseText hu)
      (Except.ok.inj h)

/-- In the drawing of `f(a+2)*b` a bar leads past the application, for `b` comes after it, and
gaps lead past the nodes that come last. Parentheses that make no difference are not drawn. -/
theorem drawing_read_back_call :
    let D := Outliner.stacked
    D.Faithful ∧
    (∃ t, parseText "f(a+2)*b" = .ok t ∧ D.render t = .ok
      "expression\n└─ *\n   ├─ f\n   │  └─ +\n   │     ├─ a\n   │     └─ 2\n   └─ b\n") ∧
    ∃ t u, parseText "(a)-b" = .ok t ∧ parseText "a-b" = .ok u ∧ t ≠ u ∧
      D.render t = D.render u ∧ t.anonymous = u.anonymous := by
  intro D
  have hD : D.Faithful := Outliner.faithful_stacked
  obtain ⟨hdrawn, -, hread⟩ := drawing_read_back D hD
  refine ⟨hD, ?_, ?_⟩
  · obtain ⟨t, ht⟩ : ∃ t, parseText "f(a+2)*b" = .ok t := ⟨_, rfl⟩
    have hdrawing := (hdrawn _ t ht).1
    cases ht
    exact ⟨_, rfl, hdrawing⟩
  · obtain ⟨t, ht⟩ : ∃ t, parseText "(a)-b" = .ok t := ⟨_, rfl⟩
    obtain ⟨u, hu⟩ : ∃ u, parseText "a-b" = .ok u := ⟨_, rfl⟩
    have hrender : D.render t = D.render u := by
      rw [(hdrawn _ t ht).1, (hdrawn _ u hu).1]
      cases ht
      cases hu
      rfl
    refine ⟨t, u, ht, hu, ?_, hrender, hread _ _ t u ht hu hrender⟩
    cases ht
    cases hu
    decide

end InfixTree
