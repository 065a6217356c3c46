import InfixTree.Proofs.Scan.Adjacency

/-! How far an allocator goes. Asked for ids one after another it hands out the numbers from its
next one on, each once, and refuses when it has come to the largest number, which it never hands
out and at which it stays. Numbering lexemes asks for one id each, so it succeeds just if as many
ids are left, and the ids it has drawn before a refusal are gone. -/
namespace InfixTree

namespace Allocator

variable {a : Allocator} {ls : List Lexeme} {text : String}

/-- The number of ids that are still to be handed out. -/
def left (a : Allocator) : Nat := UInt64.size - 1 - a.next

/-- The ids handed out to a caller who asks for some one after another until there are none,
and the allocator afterwards. -/
def draw (a : Allocator) : Nat → List Nat × Allocator
  | 0 => ([], a)
  | n + 1 =>
    match a.allocate with
    | (.error _, a) => ([], a)
    | (.ok id, a) => (id :: (a.draw n).1, (a.draw n).2)

theorem eq_of_next {b : Allocator} (h : a.next = b.next) : a = b := by
  cases a
  cases b
  cases h
  rfl

theorem next_add_left (a : Allocator) : a.next + a.left = UInt64.size - 1 := by
  have := a.next_lt
  unfold left
  omega

theorem allocate_of_pos (h : 0 < a.left) :
    ∃ b : Allocator, a.allocate = (.ok a.next, b) ∧ b.next = a.next + 1 ∧ b.left + 1 = a.left := by
  have hlt : a.next + 1 < UInt64.size := by
    unfold left at h
    omega
  refine ⟨⟨a.next + 1, hlt⟩, by simp [allocate, hlt], rfl, ?_⟩
  change UInt64.size - 1 - (a.next + 1) + 1 = UInt64.size - 1 - a.next
  omega

theorem allocate_of_left_eq_zero (h : a.left = 0) : a.allocate = (.error {}, a) := by
  have hnot : ¬ a.next + 1 < UInt64.size := by
    unfold left at h
    omega
  simp [allocate, hnot]

/-- What is handed out are consecutive numbers, as many as are asked for if so many are left. -/
theorem draw_eq (a : Allocator) (n : Nat) :
    (a.draw n).1 = List.range' a.next (min n a.left) ∧
      (a.draw n).2.next = a.next + min n a.left := by
  induction n generalizing a with
  | zero => simp [draw]
  | succ n ih =>
    by_cases hleft : a.left = 0
    · simp [draw, allocate_of_left_eq_zero hleft, hleft]
    · obtain ⟨b, hb, hnext, hb_left⟩ := allocate_of_pos (Nat.pos_of_ne_zero hleft)
      obtain ⟨hids, hafter⟩ := ih b
      have hmin : min (n + 1) a.left = min n b.left + 1 := by omega
      constructor
      · simp only [draw, hb, hids, hnext, hmin, List.range'_succ]
      · simp only [draw, hb, hafter, hnext, hmin]
        omega

theorem left_draw_of_le {n : Nat} (h : a.left ≤ n) : (a.draw n).2.left = 0 := by
  have hnext := (a.draw_eq n).2
  have hleft := a.next_add_left
  rw [Nat.min_eq_right h, hleft] at hnext
  rw [left, hnext, Nat.sub_self]

/-- Lexemes are numbered if there are ids for all of them; the allocator is drawn down in
either case. -/
theorem number_eq (a : Allocator) (ls : List Lexeme) :
    a.number ls = (if ls.length ≤ a.left then .ok (Token.numberFrom a.next ls) else .error {},
      (a.draw ls.length).2) := by
  induction ls generalizing a with
  | nil => rfl
  | cons l ls ih =>
    by_cases hleft : a.left = 0
    · simp [number, draw, allocate_of_left_eq_zero hleft, hleft]
    · obtain ⟨b, hb, hnext, hb_left⟩ := allocate_of_pos (Nat.pos_of_ne_zero hleft)
      have hfirst : Token.numberFrom a.next (l :: ls) =
          ⟨l, a.next⟩ :: Token.numberFrom b.next ls := by
        rw [hnext]
        rfl
      have hle : (l :: ls).length ≤ a.left ↔ ls.length ≤ b.left := by
        rw [← hb_left, List.length_cons, Nat.add_le_add_iff_right]
      simp only [number, hb, ih, List.length_cons, draw, hfirst]
      rw [List.length_cons] at hle
      by_cases h : ls.length ≤ b.left
      · rw [if_pos h, if_pos (hle.2 h)]
        rfl
      · rw [if_neg h, if_neg (mt hle.1 h)]
        rfl

theorem number_append {ts : List Token} {b : Allocator} (h : a.number ls = (.ok ts, b))
    (ms : List Lexeme) :
    a.number (ls ++ ms) = ((b.number ms).1.map (ts ++ ·), (b.number ms).2) := by
  induction ls generalizing a ts with
  | nil =>
    cases h
    rw [List.nil_append]
    rcases hms : b.number ms with ⟨result, d⟩
    cases result <;> rfl
  | cons l ls ih =>
    simp only [List.cons_append, number] at h ⊢
    rcases ha : a.allocate with ⟨e | id, a'⟩
    · rw [ha] at h
      cases h
    · rw [ha] at h
      simp only [Prod.mk.injEq] at h ⊢
      obtain ⟨hrest, rfl⟩ := h
      cases hls : (a'.number ls).1 with
      | error =>
        rw [hls] at hrest
        cases hrest
      | ok rest =>
        rw [hls] at hrest
        cases hrest
        rw [ih (Prod.ext hls rfl)]
        refine ⟨?_, rfl⟩
        cases ((a'.number ls).2.number ms).1 <;> rfl

end Allocator

end InfixTree
