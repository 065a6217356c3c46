import InfixTree.Proofs.Token.Numbering
import InfixTree.Session

/-! The ids of a session. A request for ids draws down the one allocator that it names and leaves
the others alone, copies of it too, so what an allocator hands out in a whole session are
consecutive ids from its first one on. The replies show them in that order, all but those
that a tokenization had drawn when it was refused. An allocator that has refused once has come
to its end and stays there. -/
namespace InfixTree

namespace Session

variable {s : Session} {slot : Nat} {a b : Allocator} {r : Request} {rs : List Request}
  {text : String}

/-- The allocator that a request asks for ids. -/
def Request.slot? : Request → Option Nat
  | .allocate slot | .tokenize slot _ => some slot
  | _ => none

/-- How many ids a request asks for. -/
def Request.demand : Request → Nat
  | .allocate _ => 1
  | .tokenize _ text => (lexemes text).length
  | _ => 0

def Reply.ids : Reply → List Nat
  | .id n => [n]
  | .tokens ts => ts.map (·.id)
  | _ => []

/-- The session that a list of requests leaves. -/
def after (s : Session) (rs : List Request) : Session := rs.foldl (fun s r => (s.step r).2) s

/-- The ids that an allocator hands out in the course of a list of requests. -/
def drawn (s : Session) (slot : Nat) : List Request → List Nat
  | [] => []
  | r :: rs =>
    (match s.allocators[slot]? with
      | some a => if r.slot? = some slot then (a.draw r.demand).1 else []
      | none => []) ++ (s.step r).2.drawn slot rs

/-- The ids of an allocator that the replies to a list of requests show. -/
def shown (s : Session) (slot : Nat) (rs : List Request) : List Nat :=
  (rs.zip (s.run rs)).flatMap fun (r, reply, _) => if r.slot? = some slot then reply.ids else []

/-! ### One request -/

theorem step_allocate (h : s.allocators[slot]? = some a) : s.step (.allocate slot) =
    (if 1 ≤ a.left then .id a.next else .outOfIds {}, s.replace slot (a.draw 1).2) := by
  by_cases hleft : a.left = 0
  · simp [step, withSlot, h, allocate, Allocator.draw, Allocator.allocate_of_left_eq_zero hleft,
      hleft]
  · have hpos : 1 ≤ a.left := Nat.pos_of_ne_zero hleft
    obtain ⟨b, hb, -⟩ := Allocator.allocate_of_pos hpos
    simp [step, withSlot, h, allocate, Allocator.draw, hb, hpos]

theorem step_tokenize (h : s.allocators[slot]? = some a) : s.step (.tokenize slot text) =
    if (lexemes text).length ≤ a.left then
      (.tokens (Token.numberFrom a.next (lexemes text)),
        { s.replace slot (a.draw (lexemes text).length).2 with
          pool := s.pool ++ Token.numberFrom a.next (lexemes text) })
    else (.outOfIds {}, s.replace slot (a.draw (lexemes text).length).2) := by
  simp only [step, withSlot, h, tokenize, tokenizeFrom, Allocator.number_eq]
  split_ifs <;> rfl

theorem step_of_none (h : s.allocators[slot]? = none) (hr : r.slot? = some slot) :
    s.step r = (.noSuchSlot, s) := by
  cases r with
  | allocate k | tokenize k text =>
    cases hr
    simp [step, withSlot, h]
  | create | copy | spell | parse | clear => cases hr

/-- The allocator that is named is drawn down, and the reply shows all the ids that were asked
for, or it is a refusal. -/
theorem step_of_some (h : s.allocators[slot]? = some a) (hr : r.slot? = some slot) :
    (s.step r).2.allocators = s.allocators.set slot (a.draw r.demand).2 ∧
      (r.demand ≤ a.left ∧ (s.step r).1 ≠ .outOfIds {} ∧ (s.step r).1.ids = (a.draw r.demand).1 ∨
        a.left < r.demand ∧ (s.step r).1 = .outOfIds {}) := by
  cases r with
  | allocate k =>
    cases hr
    rw [step_allocate h]
    refine ⟨rfl, ?_⟩
    by_cases hle : 1 ≤ a.left
    · rw [if_pos hle]
      refine .inl ⟨hle, by simp, ?_⟩
      rw [(a.draw_eq _).1, Request.demand, Nat.min_eq_left hle]
      rfl
    · rw [if_neg hle]
      exact .inr ⟨Nat.lt_of_not_le hle, rfl⟩
  | tokenize k text =>
    cases hr
    rw [step_tokenize h]
    by_cases hle : (lexemes text).length ≤ a.left
    · rw [if_pos hle]
      refine ⟨rfl, .inl ⟨hle, by simp, ?_⟩⟩
      rw [(a.draw_eq _).1, Request.demand, Nat.min_eq_left hle]
      exact map_id_numberFrom _ _
    · rw [if_neg hle]
      exact ⟨rfl, .inr ⟨Nat.lt_of_not_le hle, rfl⟩⟩
  | create | copy | spell | parse | clear => cases hr

theorem getElem?_step (h : s.allocators[slot]? = some a) (hr : r.slot? = some slot) :
    (s.step r).2.allocators[slot]? = some (a.draw r.demand).2 := by
  rw [(step_of_some h hr).1, List.getElem?_set_self (List.getElem?_eq_some_iff.1 h).1]

theorem getElem?_step_of_ne (h : s.allocators[slot]? = some a) (hr : r.slot? ≠ some slot) :
    (s.step r).2.allocators[slot]? = some a := by
  have hadd : ∀ b, (s.add b).allocators[slot]? = some a := fun b => by
    rw [add, List.getElem?_append_left (List.getElem?_eq_some_iff.1 h).1, h]
  have hdrawn : ∀ k, r.slot? = some k → (s.step r).2.allocators[slot]? = some a := by
    intro k hk
    cases hb : s.allocators[k]? with
    | none => rwa [step_of_none hb hk]
    | some b =>
      have hne : k ≠ slot := fun hks => hr (hks ▸ hk)
      rw [(step_of_some hb hk).1, List.getElem?_set_ne hne, h]
  cases r with
  | create b => exact hadd b
  | copy k =>
    simp only [step, withSlot]
    split
    · exact hadd _
    · exact h
  | allocate k => exact hdrawn k rfl
  | tokenize k text => exact hdrawn k rfl
  | spell | parse | clear => exact h

theorem exists_of_refused (h : (s.step r).1 = .outOfIds {}) : ∃ slot a,
    r.slot? = some slot ∧ s.allocators[slot]? = some a ∧ a.left < r.demand := by
  obtain ⟨slot, hr⟩ : ∃ slot, r.slot? = some slot := by
    cases r with
    | allocate k => exact ⟨k, rfl⟩
    | tokenize k text => exact ⟨k, rfl⟩
    | copy k =>
      simp only [step, withSlot] at h
      split at h <;> cases h
    | create | spell | parse | clear => cases h
  cases ha : s.allocators[slot]? with
  | none =>
    rw [step_of_none ha hr] at h
    cases h
  | some a =>
    obtain ⟨-, ⟨-, hgranted, -⟩ | ⟨hlt, -⟩⟩ := step_of_some ha hr
    · exact absurd h hgranted
    · exact ⟨slot, a, hr, ha, hlt⟩

/-! ### Many requests -/

theorem drawn_cons (h : s.allocators[slot]? = some a) : s.drawn slot (r :: rs) =
    (if r.slot? = some slot then (a.draw r.demand).1 else []) ++ (s.step r).2.drawn slot rs := by
  rw [drawn, h]

theorem shown_cons : s.shown slot (r :: rs) =
    (if r.slot? = some slot then (s.step r).1.ids else []) ++ (s.step r).2.shown slot rs := rfl

theorem drawn_eq (h : s.allocators[slot]? = some a) (rs : List Request) :
    ∃ n b, s.drawn slot rs = List.range' a.next n ∧ (s.after rs).allocators[slot]? = some b ∧
      b.next = a.next + n := by
  induction rs generalizing s a with
  | nil => exact ⟨0, a, rfl, h, rfl⟩
  | cons r rs ih =>
    rw [drawn_cons h]
    by_cases hr : r.slot? = some slot
    · obtain ⟨n, b, hdrawn, hafter, hnext⟩ := ih (getElem?_step h hr)
      obtain ⟨hids, hstep⟩ := a.draw_eq r.demand
      rw [hstep] at hdrawn hnext
      refine ⟨min r.demand a.left + n, b, ?_, hafter, by omega⟩
      rw [if_pos hr, hids, hdrawn, List.range'_append_1]
    · obtain ⟨n, b, hdrawn, hafter, hnext⟩ := ih (getElem?_step_of_ne h hr)
      refine ⟨n, b, ?_, hafter, hnext⟩
      rw [if_neg hr, hdrawn, List.nil_append]

theorem drawn_of_left_eq_zero (h : s.allocators[slot]? = some a) (ha : a.left = 0)
    (rs : List Request) : s.drawn slot rs = [] ∧ (s.after rs).allocators[slot]? = some a := by
  obtain ⟨n, b, hdrawn, hafter, hnext⟩ := drawn_eq h rs
  have hleft := a.next_add_left
  have hleft' := b.next_add_left
  obtain rfl : n = 0 := by omega
  exact ⟨hdrawn, Allocator.eq_of_next hnext ▸ hafter⟩

/-- The replies show what is handed out from the beginning on, all but what is lost when a
request is refused. -/
theorem drawn_eq_shown_append (h : s.allocators[slot]? = some a) (rs : List Request) :
    ∃ lost, s.drawn slot rs = s.shown slot rs ++ lost ∧
      (lost ≠ [] → .outOfIds {} ∈ (s.run rs).map Prod.fst) := by
  induction rs generalizing s a with
  | nil => exact ⟨[], rfl, fun hlost => absurd rfl hlost⟩
  | cons r rs ih =>
    rw [drawn_cons h, shown_cons]
    by_cases hr : r.slot? = some slot
    · have hstep := getElem?_step h hr
      obtain ⟨lost, hrest, hlost⟩ := ih hstep
      rw [if_pos hr, if_pos hr]
      obtain ⟨-, ⟨-, -, hids⟩ | ⟨hlt, hrefused⟩⟩ := step_of_some h hr
      · refine ⟨lost, ?_, fun hne => List.mem_cons_of_mem _ (hlost hne)⟩
        rw [hids, hrest, List.append_assoc]
      · -- nothing is left, so the replies that follow show no ids
        have hspent := Allocator.left_draw_of_le (Nat.le_of_lt hlt)
        have hnone := (drawn_of_left_eq_zero hstep hspent rs).1
        have hshown : (s.step r).2.shown slot rs = [] := (List.append_eq_nil_iff.1 (hrest ▸ hnone)).1
        refine ⟨(a.draw r.demand).1, ?_, fun _ => hrefused ▸ List.mem_cons_self⟩
        rw [hnone, hshown, hrefused, List.append_nil]
        rfl
    · obtain ⟨lost, hrest, hlost⟩ := ih (getElem?_step_of_ne h hr)
      rw [if_neg hr, if_neg hr]
      exact ⟨lost, hrest, fun hne => List.mem_cons_of_mem _ (hlost hne)⟩

/-- Where no ids are left, requests are refused unless they ask for none. -/
theorem reply_of_left_eq_zero (h : s.allocators[slot]? = some a) (ha : a.left = 0) :
    (s.step (.allocate slot)).1 = .outOfIds {} ∧ ∀ text, (s.step (.tokenize slot text)).1 =
      if InfixTree.tokenize text = [] then .tokens [] else .outOfIds {} := by
  constructor
  · rw [step_allocate h, ha, if_neg (by decide)]
  · intro text
    rw [step_tokenize h, ha]
    cases hls : lexemes text with
    | nil => simp [InfixTree.tokenize, hls, Token.numberFrom]
    | cons l ls => simp [InfixTree.tokenize, hls, Token.numberFrom]

end Session

open Session

/-- Ids in a session: whatever is asked of it and of others in between, an allocator hands out
consecutive ids from its next one on, never the largest number, and the replies show them in
this order, all but those that are lost with a refusal. A new allocator and a copy stand in a
slot of their own, and a request changes no allocator but the one it names. One that refuses a
request is at the largest number, and from then on it refuses every request for an id. -/
theorem ids_of_session :
    (∀ (s : Session) (slot : Nat) (a : Allocator), s.allocators[slot]? = some a →
      ∀ rs : List Request,
        (∃ n, s.drawn slot rs = List.range' a.next n) ∧ (s.drawn slot rs).Pairwise (· < ·) ∧
          (∀ id ∈ s.drawn slot rs, id < 18446744073709551615) ∧
          ∃ lost, s.drawn slot rs = s.shown slot rs ++ lost ∧
            (lost ≠ [] → .outOfIds {} ∈ (s.run rs).map Prod.fst)) ∧
    (∀ (s : Session) (r : Request) (a : Allocator),
      (r = .create a ∨ ∃ slot, r = .copy slot ∧ s.allocators[slot]? = some a) →
        (s.step r).2.allocators = s.allocators ++ [a]) ∧
    (∀ (s : Session) (r : Request) (slot : Nat) (a : Allocator), s.allocators[slot]? = some a →
      r.slot? ≠ some slot → (s.step r).2.allocators[slot]? = some a) ∧
    ∀ (s : Session) (r : Request), (s.step r).1 = .outOfIds {} →
      ∃ slot a, r.slot? = some slot ∧ a.next = 18446744073709551615 ∧ ∀ rs : List Request,
        let later := (s.step r).2.after rs
        later.allocators[slot]? = some a ∧ (later.step (.allocate slot)).1 = .outOfIds {} ∧
          ∀ text, (later.step (.tokenize slot text)).1 =
            if tokenize text = [] then .tokens [] else .outOfIds {} := by
  refine ⟨fun s slot a h rs => ?_, ?_, fun s r slot a h hr => getElem?_step_of_ne h hr, ?_⟩
  · obtain ⟨n, b, hdrawn, -, hnext⟩ := drawn_eq h rs
    refine ⟨⟨n, hdrawn⟩, hdrawn ▸ List.pairwise_lt_range', fun id hid => ?_,
      drawn_eq_shown_append h rs⟩
    rw [hdrawn, List.mem_range'_1] at hid
    have hle : b.next < 18446744073709551616 := b.next_lt
    omega
  · rintro s r a (rfl | ⟨slot, rfl, h⟩)
    · rfl
    · simp only [step, withSlot, h]
      rfl
  · intro s r hrefused
    obtain ⟨slot, a, hr, h, hlt⟩ := exists_of_refused hrefused
    have hspent := Allocator.left_draw_of_le (Nat.le_of_lt hlt)
    have hnext := (a.draw r.demand).2.next_add_left
    rw [hspent] at hnext
    refine ⟨slot, (a.draw r.demand).2, hr, hnext, fun rs => ?_⟩
    have hlater := (drawn_of_left_eq_zero (getElem?_step h hr) hspent rs).2
    exact ⟨hlater, reply_of_left_eq_zero hlater hspent⟩

/-- An allocator with three ids left gives one to its first caller. The text `x+y` needs three
and loses the other two, after which a blank text is still read; a copy made in between keeps
both. -/
theorem ids_of_session_refused :
    let s : Session := { allocators := [.fresh, .startingAt 18446744073709551612] }
    let u := s.after [.allocate 1, .copy 1]
    let r : Request := .tokenize 1 "x+y"
    s.drawn 1 [.allocate 1, .copy 1, r, .allocate 1] =
        [18446744073709551612, 18446744073709551613, 18446744073709551614] ∧
      s.shown 1 [.allocate 1, .copy 1, r, .allocate 1] = [18446744073709551612] ∧
      (s.drawn 1 [.allocate 1, .copy 1, r, .allocate 1]).Pairwise (· < ·) ∧
      u.allocators = [.fresh, .startingAt 18446744073709551613, .startingAt 18446744073709551613] ∧
      (u.step r).1 = .outOfIds {} ∧
      (u.step r).2.allocators[2]? = some (.startingAt 18446744073709551613) ∧
      ∃ slot, r.slot? = some slot ∧
        (((u.step r).2.after [.allocate 2]).step (.allocate slot)).1 = .outOfIds {} ∧
        (((u.step r).2.after [.allocate 2]).step (.tokenize slot " ")).1 = .tokens [] := by
  intro s u r
  obtain ⟨hnumbers, -, hothers, hends⟩ := ids_of_session
  have hrefused : (u.step r).1 = .outOfIds {} := rfl
  obtain ⟨slot, a, hr, -, hlater⟩ := hends u r hrefused
  obtain ⟨-, hallocate, htokenize⟩ := hlater [.allocate 2]
  refine ⟨rfl, rfl, ?_, rfl, hrefused, ?_, slot, hr, hallocate, htokenize " "⟩
  · exact (hnumbers s 1 (.startingAt 18446744073709551612) rfl _).2.1
  · exact hothers u r 2 (.startingAt 18446744073709551613) rfl (by decide)

end InfixTree
