import InfixTree.Log
import InfixTree.Tokenize
import InfixTree.Proofs.Tree.Postorder
import InfixTree.Proofs.Yard.Completeness

/-! The log of parsing replays the tree. Nodes are built when a later operator arrives, when a
group closes, when a function is called and at the end of the list; but always out of the
operands on top of the stack. So what has been built so far is what the trees on the stack are
built of, from the bottom of the stack up, and at the end that is one tree in postorder. -/
namespace InfixTree

theorem Tree.compounds_eq (t : Tree) : t.compounds = t.postorder.filter (!·.isLeaf) := by
  induction t with
  | leaf t => rfl
  | application f a ih => simp [compounds, postorder, ih, isLeaf, children]
  | operation t l r ihl ihr => simp [compounds, postorder, ihl, ihr, isLeaf, children]

namespace Operands

variable {s s' : Operands} {t : Token}

/-- The nodes built so far are those with operands in the trees on the stack, in the order of
building and from the bottom of the stack up. -/
def Replayed (s : Operands) : Prop := s.built.reverse = s.trees.reverse.flatMap Tree.compounds

theorem Replayed.push (h : s.Replayed) (t : Token) : (s.push (.leaf t)).Replayed := by
  have h : s.built.reverse = s.trees.reverse.flatMap Tree.compounds := h
  simp [Replayed, Operands.push, Tree.compounds, h]

theorem Replayed.closeGroup (h : s.Replayed) : s.closeGroup.2.Replayed := h

/-- The two trees on top go, and the one they go into ends with the node that is built. -/
theorem Replayed.operate (h : s.Replayed) (hs : s.operate t = .ok s') : s'.Replayed := by
  obtain ⟨r, l, rest, htrees, -, rfl⟩ := operate_eq_ok.1 hs
  have h : s.built.reverse = s.trees.reverse.flatMap Tree.compounds := h
  simp [Replayed, build, Tree.compounds, h, htrees]

theorem Replayed.apply (h : s.Replayed) (hs : s.apply t = .ok s') : s'.Replayed := by
  obtain ⟨a, rest, htrees, -, rfl⟩ := apply_eq_ok.1 hs
  have h : s.built.reverse = s.trees.reverse.flatMap Tree.compounds := h
  simp [Replayed, build, Tree.compounds, h, htrees]

end Operands

namespace Yard

variable {p : Operator → Bool} {ops ops' ts : List Token} {s s' : Operands} {y y' : Yard}
  {t : Token}

theorem replayed_reduce (hs : s.Replayed) (h : reduce p ops s = .ok ⟨ops', s'⟩) : s'.Replayed :=
  (reduce_induction (P := fun _ u => u.Replayed) (fun _ _ hu hs => hs.operate hu) h hs).1

theorem replayed_step (hy : y.operands.Replayed) (h : Step y t y') : y'.operands.Replayed := by
  cases h with
  | operand => exact hy.push t
  | function | openGroup => exact hy
  | operator _ hr => exact replayed_reduce hy hr
  | closeGroup _ hr => exact (replayed_reduce hy hr).closeGroup
  | closeCall _ hr _ _ _ happly => exact (replayed_reduce hy hr).closeGroup.apply happly

theorem replayed_readAll (h : readAll {} ts = .ok y) : y.operands.Replayed :=
  readAll_induction (P := fun _ y => y.operands.Replayed) rfl replayed_step h

end Yard

section Parsed

variable {ts : List Token} {s : Operands} {t : Tree}

/-- A list that leaves nothing waiting builds what it leaves. -/
theorem reductions_of_arrange (h : arrange ts = .ok s) :
    reductions ts = s.trees.reverse.flatMap Tree.compounds := by
  obtain ⟨y, hy, hr⟩ := arrange_eq_ok.1 h
  have hs : s.Replayed := Yard.replayed_reduce (Yard.replayed_readAll hy) hr
  rw [reductions, h]
  exact hs

theorem reductions_of_parse (h : parse ts = .ok t) :
    reductions ts = t.postorder.filter (!·.isLeaf) := by
  obtain ⟨y, s, hy, hr, hs⟩ := parse_eq_ok.1 h
  rw [reductions_of_arrange (arrange_eq_ok.2 ⟨y, hy, hr⟩), hs, ← Tree.compounds_eq]
  simp

namespace Log

/-- What the yard logs while a list is parsed. -/
def yard (ts : List Token) : List Event := (parsing ts).filter (·.target = .yard)

theorem yard_eq (ts : List Token) : yard ts = (reductions ts).map .built := by
  have hbuilt : ((reductions ts).map Event.built).filter (·.target = .yard) =
      (reductions ts).map .built := List.filter_eq_self.2 fun e he => by
    obtain ⟨n, -, rfl⟩ := List.mem_map.1 he
    rfl
  rw [yard, parsing, List.filter_append, hbuilt]
  cases parse ts <;> simp [Event.target]

end Log

/-- The log of a list that is parsed replays its tree: the records of the yard are the nodes with
operands in postorder, each once, with the values of its operands around its own, and right
before a node stands all that is built for its operands, the left before the right. -/
theorem log_replays_tree (h : parse ts = .ok t) :
    Log.yard ts = (t.postorder.filter (!·.isLeaf)).map .built ∧
      (t.postorder.filter (!·.isLeaf)).Perm (t.preorder.filter (!·.isLeaf)) ∧
      (∀ o l r, (Log.Event.built (.operation o l r)).message =
        "Reducing " ++ (l.value ++ " " ++ o.value ++ " " ++ r.value)) ∧
      (∀ f a, (Log.Event.built (.application f a)).message =
        "Reducing " ++ (f.value ++ "(" ++ a.value ++ ")")) ∧
      ∀ before n after, Log.yard ts = before ++ .built n :: after →
        (n.children.flatMap fun c => c.postorder.filter (!·.isLeaf)).map .built <:+ before := by
  have hyard : Log.yard ts = (t.postorder.filter (!·.isLeaf)).map .built := by
    rw [Log.yard_eq, reductions_of_parse h]
  refine ⟨hyard, t.postorder_perm.filter _, fun _ _ _ => rfl, fun _ _ => rfl, ?_⟩
  intro before n after hsplit
  rw [hyard] at hsplit
  obtain ⟨ns, ms, hnodes, rfl, hms⟩ := List.map_eq_append_iff.1 hsplit
  obtain ⟨m, rest, rfl, hm, -⟩ := List.map_eq_cons_iff.1 hms
  obtain rfl := Log.Event.built.inj hm
  exact (Tree.suffix_of_filter_postorder hnodes).map _

/-- In `a*b+sin((c-d))^2` the product goes when the sum comes, the difference when its group
closes, the call with its parentheses, and the power and the sum at the end. -/
theorem log_replays_tree_sum :
    let ts := tokenize "a*b+sin((c-d))^2"
    ∃ t, parse ts = .ok t ∧ Log.yard ts = (t.postorder.filter (!·.isLeaf)).map .built ∧
      (Log.yard ts).map (·.message) = ["Reducing a * b", "Reducing c - d", "Reducing sin(-)",
        "Reducing sin ^ 2", "Reducing * + ^"] := by
  intro ts
  obtain ⟨t, ht⟩ : ∃ t, parse ts = .ok t := ⟨_, rfl⟩
  exact ⟨t, ht, (log_replays_tree ht).1, rfl⟩

end Parsed

end InfixTree
