import InfixTree.Proofs.Text.Lines
import InfixTree.Tree.Drawing

/-! Outlines, the nested items that drawings are made of, and how a drawing is read back. The
text falls into lines at its breaks. A line gives its margin and its value, for bars and gaps
go on with the margin and the first piece of another kind ends it. The lines of an item are
followed by nothing or by a line with no wider a margin, so they tell where the items below
it end. -/
namespace InfixTree

/-- Items in order, each with the items below it and those that come next. -/
inductive Outline where
  | nil
  | item (text : String) (below next : Outline)
  deriving DecidableEq, Repr

namespace Outline

def isEmpty : Outline → Bool
  | nil => true
  | item .. => false

/-- The lines of items in a margin. An item is the last one if none comes next. -/
def drawnLines (margin : List Piece) : Outline → List DrawnLine
  | nil => []
  | item text below next =>
    ⟨margin ++ [.own next.isEmpty], text⟩ ::
      (below.drawnLines (margin ++ [.below next.isEmpty]) ++ next.drawnLines margin)

def drawing (title : String) (o : Outline) : String :=
  String.join ((title :: (o.drawnLines []).map DrawnLine.text).map (· ++ "\n"))

end Outline

/-! ### Margins -/

namespace Piece

variable {p q : Piece} {b c last last' : Bool} {above above' : List Bool} {u v : List Char}

theorem length_text (p : Piece) : p.text.toList.length = 3 := by
  cases p <;> rfl

theorem eq_of_text_append (h : p.text.toList ++ u = q.text.toList ++ v) : p = q ∧ u = v := by
  obtain ⟨htext, hrest⟩ := List.append_inj h (by rw [length_text, length_text])
  exact ⟨by cases p <;> cases q <;> first | rfl | exact absurd htext (by decide), hrest⟩

theorem own_injective (h : own b = own c) : b = c := by
  cases b <;> cases c <;> first | rfl | cases h

theorem below_injective (h : below b = below c) : b = c := by
  cases b <;> cases c <;> first | rfl | cases h

theorem own_ne_below : own b ≠ below c := by
  cases b <;> cases c <;> nofun

/-- A margin ends with the first piece that is neither a bar nor a gap. -/
theorem margin_injective
    (h : (above.map below ++ [own last]).flatMap (·.text.toList) ++ u =
      (above'.map below ++ [own last']).flatMap (·.text.toList) ++ v) :
    above = above' ∧ last = last' ∧ u = v := by
  induction above generalizing above' with
  | nil =>
    cases above' with
    | nil =>
      simp only [List.map_nil, List.nil_append, List.flatMap_singleton] at h
      obtain ⟨hown, hrest⟩ := eq_of_text_append h
      exact ⟨rfl, own_injective hown, hrest⟩
    | cons c above' =>
      simp only [List.map_nil, List.nil_append, List.map_cons, List.cons_append,
        List.flatMap_cons, List.append_assoc] at h
      exact absurd (eq_of_text_append h).1 own_ne_below
  | cons b above ih =>
    cases above' with
    | nil =>
      simp only [List.map_nil, List.nil_append, List.map_cons, List.cons_append,
        List.flatMap_cons, List.append_assoc] at h
      exact absurd (eq_of_text_append h).1.symm own_ne_below
    | cons c above' =>
      simp only [List.map_cons, List.cons_append, List.flatMap_cons, List.append_assoc] at h
      obtain ⟨hbelow, h⟩ := eq_of_text_append h
      obtain ⟨rfl, rfl, rfl⟩ := ih (by simpa only [List.append_assoc] using h)
      exact ⟨by rw [below_injective hbelow], rfl, rfl⟩

end Piece

namespace DrawnLine

/-- Bars and gaps lead to the piece of the node itself. -/
def Indented (line : DrawnLine) : Prop :=
  ∃ (above : List Bool) (last : Bool), line.margin = above.map Piece.below ++ [Piece.own last]

variable {line line' : DrawnLine} {lines lines' : List DrawnLine}

theorem toList_text (line : DrawnLine) :
    line.text.toList = line.margin.flatMap (·.text.toList) ++ line.value.toList := by
  simp [text, String.toList_join, List.flatMap_map]

theorem unbroken_text (h : Text.Unbroken line.value) : Text.Unbroken line.text := by
  refine Text.unbroken_append.2 ⟨Text.unbroken_join ?_, h⟩
  intro t ht
  obtain ⟨p, -, rfl⟩ := List.mem_map.1 ht
  cases p <;> decide

theorem Indented.eq_of_text (h : line.Indented) (h' : line'.Indented)
    (htext : line.text = line'.text) : line = line' := by
  obtain ⟨margin, value⟩ := line
  obtain ⟨margin', value'⟩ := line'
  obtain ⟨above, last, hmargin⟩ := h
  obtain ⟨above', last', hmargin'⟩ := h'
  dsimp only at hmargin hmargin'
  subst hmargin hmargin'
  have hchars := congrArg String.toList htext
  rw [toList_text, toList_text] at hchars
  obtain ⟨rfl, rfl, hvalue⟩ := Piece.margin_injective hchars
  exact congrArg (DrawnLine.mk _) (String.toList_injective hvalue)

theorem eq_of_map_text (h : ∀ line ∈ lines, line.Indented) (h' : ∀ line ∈ lines', line.Indented)
    (htext : lines.map text = lines'.map text) : lines = lines' := by
  induction lines generalizing lines' with
  | nil => exact (List.map_eq_nil_iff.1 htext.symm).symm
  | cons line lines ih =>
    obtain ⟨line', lines', rfl⟩ : ∃ l ls, lines' = l :: ls :=
      List.exists_cons_of_ne_nil fun hnil => by simp [hnil] at htext
    obtain ⟨hline, hlines⟩ := List.forall_mem_cons.1 h
    obtain ⟨hline', hlines'⟩ := List.forall_mem_cons.1 h'
    obtain ⟨hhead, htail⟩ := List.cons.inj htext
    rw [hline.eq_of_text hline' hhead, ih hlines hlines' htail]

end DrawnLine

/-! ### Items -/

namespace Outline

variable {o o' : Outline} {margin : List Piece} {rest rest' : List DrawnLine} {title : String}

theorem indented_drawnLines (o : Outline) (above : List Bool) :
    ∀ line ∈ o.drawnLines (above.map Piece.below), line.Indented := by
  induction o generalizing above with
  | nil => simp [drawnLines]
  | item text below next ihb ihn =>
    have hbelow := ihb (above ++ [next.isEmpty])
    rw [List.map_append, List.map_singleton] at hbelow
    exact List.forall_mem_cons.2
      ⟨⟨above, _, rfl⟩, List.forall_mem_append.2 ⟨hbelow, ihn above⟩⟩

/-- There is nothing, or first a line with at most so many pieces. -/
def Outdented (width : Nat) (lines : List DrawnLine) : Prop :=
  ∀ line ∈ lines.head?, line.margin.length ≤ width

theorem outdented_drawnLines (o : Outline) (h : Outdented margin.length rest) :
    Outdented (margin.length + 1) (o.drawnLines margin ++ rest) := by
  cases o with
  | nil => exact fun line hline => Nat.le_succ_of_le (h line hline)
  | item text below next => simp [Outdented, drawnLines]

theorem not_outdented_item (text : String) (below next : Outline) :
    ¬ Outdented margin.length ((item text below next).drawnLines margin ++ rest) := by
  simp [Outdented, drawnLines]

/-- Where lines go back to a narrower margin, the items below have ended. -/
theorem eq_of_drawnLines_append (h : o.drawnLines margin ++ rest = o'.drawnLines margin ++ rest')
    (hrest : Outdented margin.length rest) (hrest' : Outdented margin.length rest') :
    o = o' ∧ rest = rest' := by
  induction o generalizing margin o' rest rest' with
  | nil =>
    cases o' with
    | nil => exact ⟨rfl, h⟩
    | item text below next =>
      obtain rfl : rest = (item text below next).drawnLines margin ++ rest' := h
      exact absurd hrest (not_outdented_item text below next)
  | item text below next ihb ihn =>
    cases o' with
    | nil =>
      obtain rfl : (item text below next).drawnLines margin ++ rest = rest' := h
      exact absurd hrest' (not_outdented_item text below next)
    | item text' below' next' =>
      simp only [drawnLines, List.cons_append, List.append_assoc, List.cons.injEq,
        DrawnLine.mk.injEq, List.append_cancel_left_eq, and_true] at h
      obtain ⟨⟨hown, rfl⟩, h⟩ := h
      rw [Piece.own_injective hown] at h
      have hwidth : ∀ b, (margin ++ [Piece.below b]).length = margin.length + 1 := by simp
      obtain ⟨rfl, hnext⟩ := ihb h (hwidth _ ▸ outdented_drawnLines next hrest)
        (hwidth _ ▸ outdented_drawnLines next' hrest')
      obtain ⟨rfl, rfl⟩ := ihn hnext hrest hrest'
      exact ⟨rfl, rfl⟩

theorem drawnLines_injective (h : o.drawnLines margin = o'.drawnLines margin) : o = o' := by
  have hnil : Outdented margin.length [] := by simp [Outdented]
  exact (eq_of_drawnLines_append (by rw [h]) hnil hnil).1

/-- Outlines of unbroken texts are read back from their drawings. -/
theorem eq_of_drawing (htitle : Text.Unbroken title)
    (ho : ∀ line ∈ o.drawnLines [], Text.Unbroken line.value)
    (ho' : ∀ line ∈ o'.drawnLines [], Text.Unbroken line.value)
    (h : o.drawing title = o'.drawing title) : o = o' := by
  have hunbroken : ∀ lines : List DrawnLine, (∀ line ∈ lines, Text.Unbroken line.value) →
      ∀ text ∈ title :: lines.map DrawnLine.text, Text.Unbroken text := by
    intro lines hlines
    refine List.forall_mem_cons.2 ⟨htitle, List.forall_mem_map.2 fun line hline => ?_⟩
    exact DrawnLine.unbroken_text (hlines line hline)
  have hsplit := congrArg (·.toList.splitOn '\n') h
  simp only [drawing] at hsplit
  rw [Text.splitOn_lines (hunbroken _ ho), Text.splitOn_lines (hunbroken _ ho')] at hsplit
  have htexts := List.map_injective_iff.2 (fun _ _ => String.toList_injective)
    (List.append_cancel_right hsplit)
  exact drawnLines_injective (DrawnLine.eq_of_map_text (indented_drawnLines o [])
    (indented_drawnLines o' []) (List.cons.inj htexts).2)

end Outline

end InfixTree
