import InfixTree.Proofs.Tree.Outline
import InfixTree.Tree.Outliner

/-! What a library draws that does what it is told. All that is asked of it is that calls in
balance build the items they stand for, in order, and that an outline is written as its
drawing. The calls for a tree are in balance and stand for the tree as one item, so what is
drawn is the drawing of the tree. -/
namespace InfixTree

namespace Outliner

/-- Calls that end all they begin lead from one state to another, and the outline is the one
that they stand for. -/
inductive Builds (D : Outliner) : D.State → Outline → D.State → Prop
  | nil {s : D.State} : Builds D s .nil s
  | empty {text : String} {next : Outline} {s s' : D.State} :
    Builds D (D.addEmptyChild text s) next s' → Builds D s (.item text .nil next) s'
  | child {text : String} {below next : Outline} {s r s' : D.State} :
    Builds D (D.beginChild text s) below r → Builds D (D.endChild r) next s' →
      Builds D s (.item text below next) s'

/-- Calls in balance build what they stand for, and that is written as its drawing. -/
def Faithful (D : Outliner) : Prop :=
  ∀ title o s, D.Builds (D.start title) o s → D.write s = some (o.drawing title).toUTF8

end Outliner

namespace Tree

/-- The tree as an item, before those that come next. -/
def outlined (next : Outline) : Tree → Outline
  | leaf t => .item t.value .nil next
  | application t a => .item t.value (a.outlined .nil) next
  | operation t l r => .item t.value (l.outlined (r.outlined .nil)) next

variable {t : Tree} {next : Outline}

theorem isEmpty_outlined (t : Tree) (next : Outline) : (t.outlined next).isEmpty = false := by
  cases t <;> rfl

theorem outlined_ne_nil (t : Tree) (next : Outline) : t.outlined next ≠ .nil := by
  cases t <;> nofun

/-- The lines of a tree are those of its item. -/
theorem drawnLines_outlined (t : Tree) (next : Outline) (margin : List Piece) :
    (t.outlined next).drawnLines margin =
      t.drawnLines margin next.isEmpty ++ next.drawnLines margin := by
  induction t generalizing next margin with
  | leaf t => rfl
  | application t a ih =>
    simp only [outlined, Outline.drawnLines, ih, drawnLines, List.append_nil, List.cons_append]
    rfl
  | operation t l r ihl ihr =>
    simp only [outlined, Outline.drawnLines, ihl, ihr, drawnLines, isEmpty_outlined,
      List.append_nil, List.cons_append]
    rfl

theorem drawing_eq (t : Tree) : t.drawing = (t.outlined .nil).drawing "expression" := by
  rw [drawing, Outline.drawing, drawnLines_outlined, Outline.drawnLines, List.append_nil]
  rfl

end Tree

theorem Text.fromUTF8?_toUTF8 (s : String) : String.fromUTF8? s.toUTF8 = some s :=
  dif_pos s.isValidUTF8

namespace Outliner

variable {D : Outliner}

/-- Whatever is begun for a tree is ended, and in between are the items of its operands. -/
theorem builds_visit (t : Tree) {next : Outline} {s s' : D.State}
    (h : D.Builds (D.visit t s) next s') : D.Builds s (t.outlined next) s' := by
  induction t generalizing next s s' with
  | leaf t => exact .empty h
  | application t a ih => exact .child (ih .nil) h
  | operation t l r ihl ihr => exact .child (ihl (ihr .nil)) h

theorem Faithful.render_eq (h : D.Faithful) (t : Tree) : D.render t = .ok t.drawing := by
  have hwrite := h "expression" (t.outlined .nil) (D.visit t (D.start "expression"))
    (builds_visit t .nil)
  rw [render, hwrite]
  dsimp only
  rw [Text.fromUTF8?_toUTF8, ← t.drawing_eq]

end Outliner

/-! ### A library that keeps the open items on a stack -/

namespace Outline

def append : Outline → Outline → Outline
  | nil, o => o
  | item text below next, o => item text below (next.append o)

theorem append_nil (o : Outline) : o.append nil = o := by
  induction o with
  | nil => rfl
  | item text below next _ ih => rw [append, ih]

theorem append_assoc (a b c : Outline) : (a.append b).append c = a.append (b.append c) := by
  induction a with
  | nil => rfl
  | item text below next _ ih => rw [append, append, append, ih]

end Outline

namespace Outliner

/-- Items go below the innermost of the open ones, after those that are there. -/
def put (o : Outline) : List (String × Outline) → List (String × Outline)
  | (text, below) :: s => (text, below.append o) :: s
  | [] => []

def stacked : Outliner where
  State := List (String × Outline)
  start title := [(title, .nil)]
  beginChild text s := (text, .nil) :: s
  addEmptyChild text := put (.item text .nil .nil)
  endChild
    | (text, below) :: s => put (.item text below .nil) s
    | [] => []
  write
    | [(title, o)] => some (o.drawing title).toUTF8
    | _ => none

/-- Calls in balance leave the open items as they are, but for what they put below. -/
theorem eq_of_builds_stacked {o below : Outline} {r r' : stacked.State} {text : String}
    {s : List (String × Outline)} (h : stacked.Builds r o r') (hr : r = (text, below) :: s) :
    r' = (text, below.append o) :: s := by
  induction h generalizing text below s with
  | nil => rw [hr, Outline.append_nil]
  | empty _ ih =>
    rw [ih (congrArg (put _) hr), Outline.append_assoc]
    rfl
  | child _ _ ihb ihn =>
    have hbelow := ihb rfl
    subst hr hbelow
    rw [ihn rfl, Outline.append_assoc]
    rfl

theorem faithful_stacked : stacked.Faithful := by
  intro title o s h
  obtain rfl := eq_of_builds_stacked h rfl
  rfl

end Outliner

end InfixTree
