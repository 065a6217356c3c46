/-! Sets of characters as rising lists of code point ranges, both ends included.
Membership stops at the first range that starts above the character, which misses nothing
because the ranges rise. -/
namespace InfixTree.Text

/-- Ranges in order, none empty and none reaching into the one before it. -/
def Rising : List (Nat × Nat) → Prop
  | [] => True
  | (first, last) :: rest =>
    first ≤ last ∧ (∀ r ∈ rest.head?, last < r.1) ∧ Rising rest

instance decidableRising : (rs : List (Nat × Nat)) → Decidable (Rising rs)
  | [] => .isTrue trivial
  | (first, last) :: rest =>
    have := decidableRising rest
    inferInstanceAs (Decidable (first ≤ last ∧ (∀ r ∈ rest.head?, last < r.1) ∧ Rising rest))

structure Ranges where
  list : List (Nat × Nat)
  rising : Rising list

namespace Ranges

def covers : List (Nat × Nat) → Nat → Bool
  | [], _ => false
  | (first, last) :: rest, n => first ≤ n && (n ≤ last || covers rest n)

def contains (r : Ranges) (c : Char) : Bool := covers r.list c.toNat

/-- In a rising list no range that follows starts at or below the end of the first. -/
theorem lt_of_mem_tail {p r : Nat × Nat} {rs : List (Nat × Nat)} (h : Rising (p :: rs))
    (hr : r ∈ rs) : p.2 < r.1 := by
  induction rs generalizing p with
  | nil => cases hr
  | cons q rs ih =>
    obtain ⟨_, hpq, hrest⟩ := h
    have hq : p.2 < q.1 := hpq q rfl
    rcases List.mem_cons.1 hr with rfl | hr
    · exact hq
    · exact Nat.lt_trans (Nat.lt_of_lt_of_le hq hrest.1) (ih hrest hr)

theorem covers_iff {rs : List (Nat × Nat)} (h : Rising rs) (n : Nat) :
    covers rs n ↔ ∃ r ∈ rs, r.1 ≤ n ∧ n ≤ r.2 := by
  induction rs with
  | nil => simp [covers]
  | cons p rs ih =>
    have hlt : ∀ r ∈ rs, p.2 < r.1 := fun r hr => lt_of_mem_tail h hr
    have hp : p.1 ≤ p.2 := h.1
    simp only [covers, Bool.and_eq_true, Bool.or_eq_true, decide_eq_true_eq, ih h.2.2,
      List.mem_cons, exists_eq_or_imp]
    constructor
    · rintro ⟨h₁, h₂ | h₂⟩
      · exact .inl ⟨h₁, h₂⟩
      · exact .inr h₂
    · rintro (⟨h₁, h₂⟩ | ⟨r, hr, h₁, h₂⟩)
      · exact ⟨h₁, .inl h₂⟩
      · have := hlt r hr
        exact ⟨by omega, .inr ⟨r, hr, h₁, h₂⟩⟩

/-- No character of a range is missed. -/
theorem contains_iff (rs : Ranges) (c : Char) :
    rs.contains c ↔ ∃ r ∈ rs.list, r.1 ≤ c.toNat ∧ c.toNat ≤ r.2 :=
  covers_iff rs.rising c.toNat

end Ranges

end InfixTree.Text
