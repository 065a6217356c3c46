import InfixTree.CommandLine
import InfixTree.Proofs.Tree.Arity
import InfixTree.Proofs.Tree.Drawing
import InfixTree.Proofs.Tree.Edges
import InfixTree.Proofs.Tree.Heights
import InfixTree.Proofs.Tree.Stages

/-! The sections of a report agree. Ids tell the nodes of a tree apart, so to look up the height
of one token after the other finds each node once and nothing for a parenthesis. Depths, edges
and levels can then be counted against each other. Rows have no break in them, so they are the
lines that the output falls into. -/
namespace InfixTree

namespace Report

open Text (Unbroken)

variable {ts : List Token} {t : Tree} {x : Token}

/-- What the sections of a report tell. -/
structure Contents where
  tokens : List Token
  depths : List (Token × Nat)
  maxDepth : Nat
  edges : List Edge
  levels : List (List Tree)

/-- A column with the text on its right. -/
def rightAligned (width : Nat) (s : String) : String := String.ofList (s.toList.leftpad width ' ')

/-- A column with the text on its left. -/
def leftAligned (width : Nat) (s : String) : String := String.ofList (s.toList.rightpad width ' ')

/-- A section stands behind an empty line, and only if it is asked for. -/
def sectionLines (wanted : Bool) (title : String) (rows : List String) : List String :=
  if wanted then "" :: title :: rows else []

/-- The lines of a report: the expression, its drawing under a heading and the sections. -/
def Contents.lines (c : Contents) (t : Tree) (arguments : Arguments) : List String :=
  t.spelling :: "expression" :: (t.drawnLines [] true).map DrawnLine.text
    ++ sectionLines arguments.tokens ("tokens: " ++ Token.spelling c.tokens)
      (c.tokens.map fun x => rightAligned 4 (toString x.id) ++ "  " ++
        leftAligned 20 x.kind.name ++ "  " ++ x.value)
    ++ sectionLines arguments.depths ("max depth: " ++ toString c.maxDepth)
      (c.depths.map fun (x, height) => rightAligned 4 (toString x.id) ++ "  " ++
        leftAligned 8 x.value ++ "  " ++ toString height)
    ++ sectionLines arguments.edges "edges:"
      (c.edges.map fun e => rightAligned 4 (toString e.source) ++ " -> " ++ toString e.target)
    ++ sectionLines arguments.levels "levels:"
      (c.levels.map fun level => " ".intercalate (level.map fun n => n.token.value))

/-- The sections tell of a tree, and what they tell goes together. -/
structure Agrees (ts : List Token) (t : Tree) (c : Contents) : Prop where
  tokens_eq : c.tokens = ts
  /-- The depths are those of the tokens that are nodes, in the order of the text. -/
  depths_tokens : c.depths.map (·.1) = ts.filter (·.kind.isNode)
  /-- They list every node of the tree once, with its own height. -/
  depths_nodes : c.depths.Perm (t.preorder.map fun n => (n.token, n.height))
  /-- Their title tells the largest of them. -/
  depths_max : (c.depths.map (·.2)).max? = some c.maxDepth
  edges_eq : c.edges = t.edges
  /-- The edges are those from a node to its children. -/
  edges_linked : t.LinkedBy c.edges
  /-- There is an edge for each depth but one. -/
  edges_length : c.edges.length + 1 = c.depths.length
  /-- An edge leads to a node that is listed once and is not the root. -/
  edges_target : ∀ e ∈ c.edges, (c.depths.map (·.1.id)).count e.target = 1 ∧ e.target ≠ t.id
  levels_eq : c.levels = t.stages
  /-- The levels list every node with operands once. -/
  levels_nodes : c.levels.flatten.Perm (t.preorder.filter (!·.isLeaf))
  levels_length : c.levels.length = c.maxDepth

/-! ### Depths -/

section

variable (hids : (ts.map (·.id)).Nodup) (h : parse ts = .ok t)

include hids h

/-- A token that is a node is listed with the height of its node. -/
theorem exists_height_of_isNode (hx : x ∈ ts) (hnode : x.kind.isNode) :
    ∃ m, t.heights[x.id]? = some m := by
  have hmem : x ∈ t.tokens := (tokens_perm_of_parse h).mem_iff.2 (List.mem_filter.2 ⟨hx, hnode⟩)
  obtain ⟨n, hn, rfl⟩ := List.mem_map.1 hmem
  exact ⟨n.height, Tree.getElem?_heights_of_mem (nodup_ids_of_parse hids h) hn⟩

/-- Other tokens are not listed, for no node has their ids. -/
theorem height_of_not_isNode (hx : x ∈ ts) (hnode : ¬ x.kind.isNode) :
    t.heights[x.id]? = none := by
  refine Tree.getElem?_heights_eq_none fun n hn hid => hnode ?_
  have hmem : n.token ∈ ts.filter (·.kind.isNode) :=
    (tokens_perm_of_parse h).mem_iff.1 (List.mem_map_of_mem hn)
  obtain ⟨hts, hn⟩ := List.mem_filter.1 hmem
  obtain rfl : n.token = x := List.inj_on_of_nodup_map hids hts hx hid
  exact hn

theorem depthRows_eq : depthRows ts t =
    (ts.filter (·.kind.isNode)).map fun x => (x, t.heights[x.id]?.getD 0) := by
  rw [← List.filterMap_eq_filter, List.map_filterMap]
  refine List.filterMap_congr fun x hx => ?_
  by_cases hnode : x.kind.isNode
  · obtain ⟨m, hm⟩ := exists_height_of_isNode hids h hx hnode
    simp [Option.guard, hnode, hm]
  · simp [Option.guard, hnode, height_of_not_isNode hids h hx hnode]

theorem depthRows_perm : (depthRows ts t).Perm (t.preorder.map fun n => (n.token, n.height)) := by
  have hrow : ∀ n ∈ t.preorder,
      (n.token, t.heights[n.token.id]?.getD 0) = (n.token, n.height) := fun n hn => by
    have hheight : t.heights[n.token.id]? = some n.height :=
      Tree.getElem?_heights_of_mem (nodup_ids_of_parse hids h) hn
    rw [hheight, Option.getD_some]
  have hperm := (tokens_perm_of_parse h).symm.map fun x => (x, t.heights[x.id]?.getD 0)
  rw [Tree.tokens, List.map_map] at hperm
  rw [depthRows_eq hids h, ← List.map_congr_left hrow]
  exact hperm

/-- The root is listed with the largest height. -/
theorem max?_depths : ((depthRows ts t).map (·.2)).max? = some t.height := by
  have hperm : ((depthRows ts t).map (·.2)).Perm (t.preorder.map Tree.height) := by
    simpa [Function.comp_def] using (depthRows_perm hids h).map (·.2)
  refine List.max?_eq_some_iff.2 ⟨?_, fun m hm => ?_⟩
  · exact hperm.mem_iff.2 (List.mem_map_of_mem t.self_mem_preorder)
  · obtain ⟨n, hn, rfl⟩ := List.mem_map.1 (hperm.mem_iff.1 hm)
    exact Tree.height_le_of_mem hn

/-- The ids that are listed are that of the root and those that edges lead to. -/
theorem ids_perm : ((depthRows ts t).map (·.1.id)).Perm (t.id :: t.edges.map Edge.target) := by
  refine ((depthRows_perm hids h).map (·.1.id)).trans ?_
  rw [List.map_map]
  exact t.targets_perm.symm

theorem length_edges : t.edges.length + 1 = (depthRows ts t).length := by
  have hlength := (ids_perm hids h).length_eq
  rw [List.length_map, List.length_cons, List.length_map] at hlength
  exact hlength.symm

theorem count_target {e : Edge} (he : e ∈ t.edges) :
    ((depthRows ts t).map (·.1.id)).count e.target = 1 ∧ e.target ≠ t.id := by
  have hnodup : (t.id :: t.edges.map Edge.target).Nodup :=
    t.targets_perm.nodup_iff.2 (nodup_ids_of_parse hids h)
  have hmem : e.target ∈ t.edges.map Edge.target := List.mem_map_of_mem he
  constructor
  · rw [(ids_perm hids h).count_eq]
    exact List.count_eq_one_of_mem hnodup (List.mem_cons_of_mem _ hmem)
  · intro hroot
    exact (List.nodup_cons.1 hnodup).1 (hroot ▸ hmem)

end

/-! ### Lines -/

theorem unbroken_idText (n : Nat) : Unbroken (idText n) :=
  Text.Layout.unbroken_number (by decide) n

theorem unbroken_spelling (hts : ∀ x ∈ ts, x.toLexeme.Fits) : Unbroken (Token.spelling ts) := by
  refine Text.unbroken_join fun line hline => ?_
  obtain ⟨x, hx, rfl⟩ := List.mem_map.1 hline
  exact (hts x hx).unbroken_spelling

theorem unbroken_title (hts : ∀ x ∈ ts, x.toLexeme.Fits) (s : Section) :
    Unbroken (title ts t s) := by
  cases s with
  | tokens => exact Text.unbroken_append.2 ⟨by decide, unbroken_spelling hts⟩
  | depths => exact Text.unbroken_append.2 ⟨by decide, Text.unbroken_toString _⟩
  | edges =>
    show Unbroken "edges:"
    decide
  | levels =>
    show Unbroken "levels:"
    decide

theorem unbroken_tokenLine (h : x.toLexeme.Fits) : Unbroken (tokenLine x) := by
  have hblank : Unbroken "  " := by decide
  simp only [tokenLine, Text.unbroken_append, unbroken_idText, hblank, h.unbroken, true_and,
    and_true]
  exact Text.Layout.unbroken_text (by decide) x.kind.unbroken_name

theorem unbroken_depthLine (h : x.toLexeme.Fits) (m : Nat) : Unbroken (depthLine (x, m)) := by
  have hblank : Unbroken "  " := by decide
  simp only [depthLine, Text.unbroken_append, unbroken_idText, hblank, Text.unbroken_toString,
    true_and, and_true]
  exact Text.Layout.unbroken_text (by decide) h.unbroken

theorem unbroken_edgeLine (e : Edge) : Unbroken (edgeLine e) := by
  have harrow : Unbroken " -> " := by decide
  simp only [edgeLine, Text.unbroken_append, unbroken_idText, harrow, Text.unbroken_toString,
    true_and]

theorem unbroken_levelLine {level : List Tree} (h : ∀ n ∈ level, n.token.toLexeme.Fits) :
    Unbroken (levelLine level) := by
  refine Text.unbroken_intercalate (by decide) fun value hvalue => ?_
  obtain ⟨n, hn, rfl⟩ := List.mem_map.1 hvalue
  exact (h n hn).unbroken

theorem unbroken_rows (hts : ∀ x ∈ ts, x.toLexeme.Fits)
    (ht : ∀ n ∈ t.preorder, n.token.toLexeme.Fits) (s : Section) :
    ∀ line ∈ rows ts t s, Unbroken line := by
  cases s with
  | tokens => exact List.forall_mem_map.2 fun x hx => unbroken_tokenLine (hts x hx)
  | depths =>
    refine List.forall_mem_map.2 fun row hrow => ?_
    obtain ⟨x, hx, hm⟩ := List.mem_filterMap.1 hrow
    obtain ⟨m, -, rfl⟩ := Option.map_eq_some_iff.1 hm
    exact unbroken_depthLine (hts x hx) m
  | edges => exact List.forall_mem_map.2 fun e _ => unbroken_edgeLine e
  | levels =>
    exact List.forall_mem_map.2 fun level hlevel => unbroken_levelLine fun n hn =>
      ht n (Tree.mem_preorder_of_mem_stages hlevel hn)

/-! ### Agreement -/

/-- What the report on a tree lists. -/
def contents (ts : List Token) (t : Tree) : Contents where
  tokens := ts
  depths := depthRows ts t
  maxDepth := t.height
  edges := t.edges
  levels := t.stages

theorem agrees_contents (hids : (ts.map (·.id)).Nodup) (h : parse ts = .ok t) :
    Agrees ts t (contents ts t) where
  tokens_eq := rfl
  depths_tokens := by simp [contents, depthRows_eq hids h, Function.comp_def]
  depths_nodes := depthRows_perm hids h
  depths_max := max?_depths hids h
  edges_eq := rfl
  edges_linked := Tree.linkedBy_edges (nodup_ids_of_parse hids h)
  edges_length := length_edges hids h
  edges_target _ he := count_target hids h he
  levels_eq := rfl
  levels_nodes := t.flatten_stages_perm
  levels_length := t.length_stages

/-! ### The lines of the output -/

theorem unlines_cons (line : String) (lines : List String) :
    unlines (line :: lines) = line ++ "\n" ++ unlines lines := by
  simp [unlines]

theorem unlines_append (lines more : List String) :
    unlines (lines ++ more) = unlines lines ++ unlines more := by
  simp [unlines]

/-- The lines of a report, as they are put together. -/
def textLines (ts : List Token) (t : Tree) (sections : List Section) : List String :=
  t.spelling :: "expression" :: (t.drawnLines [] true).map DrawnLine.text
    ++ sections.flatMap fun s => "" :: title ts t s :: rows ts t s

theorem text_eq_unlines (ts : List Token) (t : Tree) (sections : List Section) :
    text ts t sections = unlines (textLines ts t sections) := by
  have hsections : String.join (sections.map (sectionText ts t)) =
      unlines (sections.flatMap fun s => "" :: title ts t s :: rows ts t s) := by
    induction sections with
    | nil => rfl
    | cons s sections ih =>
      rw [List.map_cons, String.join_cons, ih, List.flatMap_cons, unlines_append, unlines_cons "",
        sectionText, String.empty_append]
  rw [text, textLines, unlines_append, unlines_cons, ← hsections]
  rfl

theorem unbroken_textLines (hts : ∀ x ∈ ts, x.toLexeme.Fits) (ht : t.Valid)
    (sections : List Section) : ∀ line ∈ textLines ts t sections, Unbroken line := by
  have hnodes : ∀ n ∈ t.preorder, n.token.toLexeme.Fits :=
    fun n hn => (Tree.shaped_iff.1 ht n hn).2
  have hspelling : Unbroken t.spelling := by
    rw [← spelling_tokenize_spelling ht]
    exact unbroken_spelling fun _ => fits_of_mem_tokenize
  have hdrawn : ∀ line ∈ (t.drawnLines [] true).map DrawnLine.text, Unbroken line :=
    List.forall_mem_map.2 fun line hline =>
      DrawnLine.unbroken_text (Tree.unbroken_drawnLines ht [] true line hline)
  refine List.forall_mem_append.2 ⟨?_, List.forall_mem_flatMap.2 fun s _ => ?_⟩
  · exact List.forall_mem_cons.2 ⟨hspelling, List.forall_mem_cons.2 ⟨by decide, hdrawn⟩⟩
  · exact List.forall_mem_cons.2 ⟨by decide,
      List.forall_mem_cons.2 ⟨unbroken_title hts s, unbroken_rows hts hnodes s⟩⟩

/-! ### Columns -/

theorem pad_right (width : Nat) (s : String) :
    { width : Text.Layout }.pad .right s = rightAligned width s := by
  simp [Text.Layout.pad, rightAligned, List.leftpad, String.length_toList]

theorem pad_left (width : Nat) (s : String) :
    { width : Text.Layout }.pad .left s = leftAligned width s := by
  simp [Text.Layout.pad, leftAligned, List.rightpad, String.length_toList]

theorem tokenLine_eq : tokenLine = fun x => rightAligned 4 (toString x.id) ++ "  " ++
    leftAligned 20 x.kind.name ++ "  " ++ x.value := by
  funext x
  rw [tokenLine, idText, Text.Layout.number, Text.Layout.text, pad_right, pad_left]

theorem depthLine_eq : depthLine = fun (x, height) => rightAligned 4 (toString x.id) ++ "  " ++
    leftAligned 8 x.value ++ "  " ++ toString height := by
  funext row
  rw [depthLine, idText, Text.Layout.number, Text.Layout.text, pad_right, pad_left]

theorem edgeLine_eq : edgeLine = fun e =>
    rightAligned 4 (toString e.source) ++ " -> " ++ toString e.target := by
  funext e
  rw [edgeLine, idText, Text.Layout.number, pad_right]

theorem flatMap_filter (wants : Section → Bool) (lines : Section → List String)
    (sections : List Section) : (sections.filter wants).flatMap lines =
      sections.flatMap fun s => if wants s then lines s else [] := by
  induction sections with
  | nil => rfl
  | cons s sections ih => by_cases h : wants s <;> simp [h, ih]

/-- The lines that are put together are those of what is listed. -/
theorem textLines_eq (ts : List Token) (t : Tree) (arguments : Arguments) :
    textLines ts t arguments.sections = (contents ts t).lines t arguments := by
  have hmax : (t.measure ∅).1 = t.height := t.measure_fst ∅
  have hlevels : levelLine = fun level => " ".intercalate (level.map fun n => n.token.value) := rfl
  rw [textLines, Arguments.sections, flatMap_filter]
  simp only [Section.all, List.flatMap_cons, List.flatMap_nil, List.append_nil, Arguments.wants,
    title, rows, tokenLine_eq, depthLine_eq, edgeLine_eq, hlevels, hmax]
  simp only [Contents.lines, contents, sectionLines, List.append_assoc]

end Report

/-! ### Runs of the program -/

theorem evaluate_of_parse {arguments : Arguments} {t : Tree}
    (h : parse (tokenize arguments.expression) = .ok t) :
    (evaluate arguments).exitCode = 0 ∧ (evaluate arguments).output =
      Report.text (tokenize arguments.expression) t arguments.sections := by
  simp only [evaluate, h]
  exact ⟨rfl, rfl⟩

theorem exists_parse_of_exitCode {arguments : Arguments} (h : (evaluate arguments).exitCode = 0) :
    ∃ t, parse (tokenize arguments.expression) = .ok t := by
  cases hparse : parse (tokenize arguments.expression) with
  | error cause =>
    simp only [evaluate, hparse] at h
    cases h
  | ok t => exact ⟨t, rfl⟩

/-- Where an expression is accepted, there are contents that agree, and whichever sections are
asked for, the output falls into their lines and ends with a break. -/
theorem report_agrees {arguments : Arguments} (h : (evaluate arguments).exitCode = 0) :
    ∃ t c, parseText arguments.expression = .ok t ∧
      Report.Agrees (tokenize arguments.expression) t c ∧
      ∀ flags : Arguments, flags.expression = arguments.expression →
        (evaluate flags).exitCode = 0 ∧ (evaluate flags).output.toList.splitOn '\n' =
          (c.lines t flags).map String.toList ++ [[]] := by
  obtain ⟨t, hparse⟩ := exists_parse_of_exitCode h
  have ht : parseText arguments.expression = .ok t := parseText_eq_ok.2 hparse
  refine ⟨t, Report.contents (tokenize arguments.expression) t, ht,
    Report.agrees_contents (nodup_ids_tokenize _) hparse, fun flags hflags => ?_⟩
  rw [← hflags] at hparse ht ⊢
  obtain ⟨hcode, houtput⟩ := evaluate_of_parse hparse
  have hfits : ∀ x ∈ tokenize flags.expression, x.toLexeme.Fits := fun _ => fits_of_mem_tokenize
  have hunbroken := Report.unbroken_textLines hfits (valid_of_parseText ht) flags.sections
  rw [Report.textLines_eq] at hunbroken
  rw [houtput, Report.text_eq_unlines, Report.textLines_eq]
  exact ⟨hcode, Text.splitOn_lines hunbroken⟩

/-- The report on `sin(7a+3b)^2` has ten depths, of which the largest is four, nine edges and four
levels. -/
theorem report_agrees_power :
    let arguments : Arguments := {
      expression := "sin(7a+3b)^2"
      tokens := false
      depths := true
      edges := true
      levels := true
      logLevel := some .error }
    (evaluate arguments).exitCode = 0 ∧ ∃ t c, parseText "sin(7a+3b)^2" = .ok t ∧
      Report.Agrees (tokenize "sin(7a+3b)^2") t c ∧
      (evaluate arguments).output.toList.splitOn '\n' =
        (c.lines t arguments).map String.toList ++ [[]] ∧
      c.depths.length = 10 ∧ c.maxDepth = 4 ∧ c.edges.length = 9 ∧ c.levels.length = 4 := by
  intro arguments
  obtain ⟨u, hu⟩ : ∃ u, parse (tokenize "sin(7a+3b)^2") = .ok u := ⟨_, rfl⟩
  have hcode : (evaluate arguments).exitCode = 0 := (@evaluate_of_parse arguments u hu).1
  obtain ⟨t, c, hparse, hagrees, hlines⟩ := report_agrees hcode
  change parseText "sin(7a+3b)^2" = .ok t at hparse
  change Report.Agrees (tokenize "sin(7a+3b)^2") t c at hagrees
  have hdepths : c.depths.length = 10 := by
    have hlength := congrArg List.length hagrees.depths_tokens
    rw [List.length_map] at hlength
    exact hlength
  have hedges : c.edges.length + 1 = c.depths.length := hagrees.edges_length
  have hheight : (parseText "sin(7a+3b)^2").map Tree.height = .ok 4 := rfl
  have hlevels : c.levels.length = 4 := by
    rw [hparse] at hheight
    rw [hagrees.levels_eq, Tree.length_stages]
    exact Except.ok.inj hheight
  have hmax : c.maxDepth = 4 := hagrees.levels_length ▸ hlevels
  exact ⟨hcode, t, c, hparse, hagrees, (hlines arguments rfl).2, hdepths, hmax, by omega, hlevels⟩

end InfixTree
