import InfixTree.Proofs.Scan.Spelling
import InfixTree.Text.Padding

/-! Text that stays on one line. Rows are put together from numbers, names and the values of
tokens, and a break is in none of them, for it is no character of the notation. A text that
is written line by line falls into the same lines again. -/
namespace InfixTree

namespace Text

def Unbroken (s : String) : Prop := '\n' ∉ s.toList

instance (s : String) : Decidable (Unbroken s) := inferInstanceAs (Decidable ('\n' ∉ s.toList))

variable {s t : String} {parts : List String}

@[simp] theorem unbroken_append : Unbroken (s ++ t) ↔ Unbroken s ∧ Unbroken t := by
  simp [Unbroken]

theorem unbroken_join (h : ∀ t ∈ parts, Unbroken t) : Unbroken (String.join parts) := by
  simpa [Unbroken, String.toList_join] using h

theorem unbroken_intercalate (hs : Unbroken s) (h : ∀ t ∈ parts, Unbroken t) :
    Unbroken (s.intercalate parts) := by
  induction parts with
  | nil => simp [Unbroken]
  | cons t parts ih =>
    obtain ⟨ht, hparts⟩ := List.forall_mem_cons.1 h
    cases parts with
    | nil => simpa using ht
    | cons u parts =>
      rw [String.intercalate_cons_cons, unbroken_append, unbroken_append]
      exact ⟨⟨ht, hs⟩, ih hparts⟩

@[simp] theorem unbroken_toString (n : Nat) : Unbroken (toString n) := by
  intro h
  have hdigit : '\n'.isDigit := by
    refine Nat.isDigit_of_mem_toDigits (b := 10) (n := n) (by decide) (by decide) ?_
    rw [← Nat.toList_repr]
    exact h
  exact absurd hdigit (by decide)

/-- A text of whole lines falls into these lines, and nothing stands behind the last break. -/
theorem splitOn_lines {lines : List String} (h : ∀ line ∈ lines, Unbroken line) :
    (String.join (lines.map (· ++ "\n"))).toList.splitOn '\n' =
      lines.map String.toList ++ [[]] := by
  induction lines with
  | nil => rfl
  | cons line lines ih =>
    obtain ⟨hline, hlines⟩ := List.forall_mem_cons.1 h
    have hbreak : (String.join ((line :: lines).map (· ++ "\n"))).toList =
        line.toList ++ '\n' :: (String.join (lines.map (· ++ "\n"))).toList := by
      simp [String.toList_join]
    rw [hbreak, List.splitOn_append_cons_self_of_not_mem hline, ih hlines]
    rfl

namespace Layout

variable {layout : Layout}

/-- Filling up a field does not break it, unless it is filled with breaks. -/
theorem unbroken_pad (hfill : layout.fill ≠ '\n') (standard : Alignment) (hs : Unbroken s) :
    Unbroken (layout.pad standard s) := by
  have hfilling : ∀ n, Unbroken (String.ofList (List.replicate n layout.fill)) := fun n h => by
    rw [String.toList_ofList] at h
    exact hfill (List.eq_of_mem_replicate h).symm
  simp only [pad, unbroken_append]
  exact ⟨⟨hfilling _, hs⟩, hfilling _⟩

theorem unbroken_text (hfill : layout.fill ≠ '\n') (hs : Unbroken s) :
    Unbroken (layout.text s) := by
  refine unbroken_pad hfill .left ?_
  split
  · intro hmem
    rw [String.toList_ofList] at hmem
    exact hs (List.mem_of_mem_take hmem)
  · exact hs

theorem unbroken_number (hfill : layout.fill ≠ '\n') (n : Nat) : Unbroken (layout.number n) :=
  unbroken_pad hfill .right (unbroken_toString n)

end Layout

end Text

open Text

theorem Kind.unbroken_name (k : Kind) : Unbroken k.name := by
  cases k with
  | operator o => cases o <;> decide
  | literal | «variable» | function | leftParenthesis | rightParenthesis | comma => decide

namespace Lexeme

variable {l : Lexeme}

theorem Fits.unbroken (h : l.Fits) : Unbroken l.value := fun hbreak => h.not_foreign _ hbreak rfl

theorem Fits.unbroken_spelling (h : l.Fits) : Unbroken l.spelling := by
  have hblank : Unbroken " " := by decide
  unfold spelling
  split
  · rename_i o _
    cases o <;> simp [Operator.spaced, h.unbroken, hblank]
  · simp [h.unbroken, hblank]
  · exact h.unbroken

end Lexeme

end InfixTree
