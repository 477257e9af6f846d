/-
Comments and the scope graph.

A tree without its comments has the nodes that are left, in their order, with the fields and
the places they had.  Reading it for names gives what reading the tree gives
(`build_uncommented`), as long as no comment is taken for a part of the syntax.  Two things are
asked for that: that no comment fills a field, which holds of every parsed text, and that no
comment stands where the first named child of a node is read.  The second fails for a rest
pattern with a comment after its dots, and a parameter is hidden that way
(`rest_hidden_by_comment`).

Everything else that is read passes over comments: lists of named children, the commas of an
array pattern, and the operand of a cast, which is looked for among all tokens.
-/
import HookLint.Proofs.Relocation

namespace HookLint.Syntax

namespace Tree

mutual

/-- The tree without the comments below it. -/
def uncommented : Tree → Tree
  | node l cs => node l (uncommentedAll cs)

/-- The trees that are no comments, each without the comments below it. -/
def uncommentedAll : List Tree → List Tree
  | [] => []
  | t :: ts => if t.kind = .comment then uncommentedAll ts else uncommented t :: uncommentedAll ts

end

/-- No comment is taken for a part of the syntax. -/
structure Tidy (t : Tree) : Prop where
  fields : ∀ u ∈ t.subtrees, u.kind = .comment → u.label.fields = []
  first : ∀ u ∈ t.subtrees, u.kind.readsFirst = true →
    ∀ c ∈ u.children.find? (·.label.named), c.kind ≠ .comment

theorem uncommentedAll_eq (ts : List Tree) :
    uncommentedAll ts = (ts.filter (·.kind != .comment)).map uncommented := by
  induction ts with
  | nil => rfl
  | cons t ts ih =>
      rw [uncommentedAll, ih]
      by_cases hk : t.kind = .comment
      · rw [if_pos hk, List.filter_cons_of_neg (by simp [hk])]
      · rw [if_neg hk, List.filter_cons_of_pos (by simp [hk]), List.map_cons]

@[simp] theorem label_uncommented (t : Tree) : t.uncommented.label = t.label := by
  cases t with
  | node l cs => rfl

theorem children_uncommented (t : Tree) :
    t.uncommented.children = (t.children.filter (·.kind != .comment)).map uncommented := by
  cases t with
  | node l cs => exact uncommentedAll_eq cs

theorem Tidy.child {t c : Tree} (h : t.Tidy) (hc : c ∈ t.children) : c.Tidy where
  fields u hu := h.fields u (mem_subtrees_of_child hc hu)
  first u hu := h.first u (mem_subtrees_of_child hc hu)

end Tree

namespace Site

/-- The site in the tree without comments. -/
def uncommented (s : Site) : Site := ⟨s.tree.uncommented, s.above.map Tree.uncommented⟩

variable {s : Site}

@[simp] theorem label_uncommented (s : Site) : s.uncommented.label = s.label :=
  s.tree.label_uncommented

@[simp] theorem kind_uncommented (s : Site) : s.uncommented.kind = s.kind :=
  congrArg Label.kind s.label_uncommented

@[simp] theorem isProper_uncommented (s : Site) : s.uncommented.isProper = s.isProper := by
  simp only [isProper, label_uncommented, kind_uncommented]

/-- A named node that is no comment is there in both trees. -/
theorem isProper_and (s : Site) : (s.uncommented.isProper && s.kind != .comment) = s.isProper := by
  rw [isProper_uncommented, isProper, Bool.and_assoc, Bool.and_self]

theorem children_uncommented (s : Site) :
    s.uncommented.children = (s.children.filter (·.kind != .comment)).map uncommented := by
  unfold children
  rw [uncommented, Tree.children_uncommented, List.map_map, List.filter_map, List.map_map]
  rfl

theorem namedChildren_uncommented (s : Site) :
    s.uncommented.namedChildren = s.namedChildren.map uncommented := by
  unfold namedChildren
  rw [children_uncommented, List.filter_map, List.filter_filter]
  simp only [Function.comp_apply, isProper_and]

/-- What is found among the children is found among those that are no comments, unless it is
one. -/
theorem find?_uncommented {test : Site → Bool} (htest : ∀ c, test c.uncommented = test c)
    (h : ∀ c ∈ s.children.find? test, c.kind ≠ .comment) :
    s.uncommented.children.find? test = (s.children.find? test).map uncommented := by
  rw [children_uncommented, List.find?_map]
  simp only [Function.comp_def, htest]
  congr 1
  revert h
  induction s.children with
  | nil => exact fun _ => rfl
  | cons c cs ih =>
      intro h
      by_cases hc : test c = true
      · rw [List.find?_cons_of_pos hc] at h ⊢
        rw [List.filter_cons_of_pos (by simpa using h c rfl), List.find?_cons_of_pos hc]
      · rw [List.find?_cons_of_neg hc] at h ⊢
        by_cases hk : c.kind = .comment
        · rw [List.filter_cons_of_neg (by simp [hk]), ih h]
        · rw [List.filter_cons_of_pos (by simpa using hk), List.find?_cons_of_neg hc, ih h]

theorem field?_uncommented (hs : s.tree.Tidy) (f : Field) :
    s.uncommented.field? f = (s.field? f).map uncommented := by
  refine find?_uncommented (fun c => by rw [label_uncommented]) ?_
  intro c hc hk
  have hmem : c.tree ∈ s.tree.subtrees :=
    Tree.mem_subtrees_of_child (tree_mem_of_mem_children (List.mem_of_find?_eq_some hc))
      c.tree.self_mem_subtrees
  have hfills : c.label.fields.contains f = true := (List.find?_some hc :)
  rw [label, hs.fields c.tree hmem hk] at hfills
  contradiction

theorem firstNamed?_uncommented (hs : s.tree.Tidy) (hk : s.kind.readsFirst = true) :
    s.uncommented.firstNamed? = s.firstNamed?.map uncommented := by
  refine find?_uncommented (fun c => by rw [label_uncommented]) ?_
  have hfirst := hs.first s.tree s.tree.self_mem_subtrees hk
  intro c hc
  have hfound : s.tree.children.find? (·.label.named) = some c.tree := by
    unfold children at hc
    rw [List.find?_map] at hc
    obtain ⟨t, ht, rfl⟩ := Option.map_eq_some_iff.mp hc
    exact ht
  exact hfirst c.tree hfound

/-! ### Casts -/

theorem flattened_uncommented (s : Site) :
    s.uncommented.flattened = (s.flattened.filter (·.kind != .comment)).map uncommented := by
  unfold flattened
  rw [children_uncommented]
  induction s.children with
  | nil => rfl
  | cons c cs ih =>
      rw [List.flatMap_cons, List.filter_append, List.map_append, ← ih]
      by_cases hk : c.kind = .comment
      · rw [List.filter_cons_of_neg (by simp [hk]), if_neg (by simp [hk]),
          List.filter_cons_of_neg (by simp [hk])]
        rfl
      · rw [List.filter_cons_of_pos (by simpa using hk), List.map_cons, List.flatMap_cons,
          kind_uncommented]
        congr 1
        by_cases herror : c.kind = .error
        · rw [if_pos herror, if_pos herror, children_uncommented]
        · rw [if_neg herror, if_neg herror, List.filter_cons_of_pos (by simpa using hk)]
          rfl

/-- Comments are no colons. -/
theorem beforeColon?_uncommented (tokens : List Site) :
    beforeColon? ((tokens.filter (·.kind != .comment)).map uncommented) =
      (beforeColon? tokens).map fun ts => (ts.filter (·.kind != .comment)).map uncommented := by
  have hany : ((tokens.filter (·.kind != .comment)).map uncommented).any (·.kind == .colon) =
      tokens.any (·.kind == .colon) := by
    induction tokens with
    | nil => rfl
    | cons t ts ih =>
        by_cases hk : t.kind = .comment
        · rw [List.filter_cons_of_neg (by simp [hk]), ih, List.any_cons, hk]
          rfl
        · rw [List.filter_cons_of_pos (by simpa using hk), List.map_cons, List.any_cons, ih,
            List.any_cons, kind_uncommented]
  have htake : ((tokens.filter (·.kind != .comment)).map uncommented).takeWhile (·.kind != .colon) =
      ((tokens.takeWhile (·.kind != .colon)).filter (·.kind != .comment)).map uncommented := by
    clear hany
    induction tokens with
    | nil => rfl
    | cons t ts ih =>
        by_cases hk : t.kind = .comment
        · rw [List.filter_cons_of_neg (by simp [hk]), ih, List.takeWhile_cons_of_pos (by simp [hk]),
            List.filter_cons_of_neg (by simp [hk])]
        · rw [List.filter_cons_of_pos (by simpa using hk), List.map_cons]
          by_cases hcolon : t.kind = .colon
          · rw [List.takeWhile_cons_of_neg (by simp [hcolon]),
              List.takeWhile_cons_of_neg (by simp [hcolon])]
            rfl
          · rw [List.takeWhile_cons_of_pos (by simpa using hcolon), ih,
              List.takeWhile_cons_of_pos (by simpa using hcolon),
              List.filter_cons_of_pos (by simpa using hk), List.map_cons]
  unfold beforeColon?
  rw [hany, htake]
  split <;> rfl

theorem castOperand?_uncommented (s : Site) :
    s.uncommented.castOperand? = s.castOperand?.map uncommented := by
  have hoperands : ∀ tokens : List Site,
      ((tokens.filter (·.kind != .comment)).map uncommented).filter
          (fun t => t.isProper && t.kind != .error) =
        (tokens.filter fun t => t.isProper && t.kind != .error).map uncommented := by
    intro tokens
    rw [List.filter_map, List.filter_filter]
    congr 2
    funext t
    simp only [Function.comp_apply, kind_uncommented]
    rw [Bool.and_right_comm, isProper_and]
  unfold castOperand?
  rw [kind_uncommented, label_uncommented]
  split
  · rw [flattened_uncommented, beforeColon?_uncommented]
    cases beforeColon? s.flattened with
    | none => rfl
    | some tokens =>
        simp only [Option.map_some, hoperands]
        generalize (tokens.filter fun t => t.isProper && t.kind != .error) = operands
        match operands with
        | [] => rfl
        | [_] => rfl
        | _ :: _ :: _ => rfl
  · rfl

end Site

end HookLint.Syntax

namespace HookLint.Scope

open HookLint.Syntax

/-! ### Elements -/

/-- Comments are neither commas nor elements. -/
theorem elements_uncommented (position : Nat) (cs : List Site) :
    elements position ((cs.filter (·.kind != .comment)).map Site.uncommented) =
      (elements position cs).map (Prod.map id Site.uncommented) := by
  induction cs generalizing position with
  | nil => rfl
  | cons c cs ih =>
      by_cases hk : c.kind = .comment
      · rw [List.filter_cons_of_neg (by simp [hk]), ih, elements, if_neg (by simp [hk]),
          if_neg (by simp [Site.isProper, hk])]
      · rw [List.filter_cons_of_pos (by simpa using hk), List.map_cons]
        simp only [elements, Site.kind_uncommented, Site.isProper_uncommented, ih]
        split
        · rfl
        · split <;> rfl

/-- The places of sites in the tree without comments. -/
def uncommenting : Relocation where
  site := Site.uncommented
  number := id
  id_site s := congrArg Label.id s.label_uncommented

theorem keeps_uncommenting (source : String) :
    uncommenting.Keeps source source fun s => s.tree.Tidy where
  injective := Function.injective_id
  kind s := s.kind_uncommented
  child hs _ hc := hs.child (Site.tree_mem_of_mem_children hc)
  namedChildren _ := Site.namedChildren_uncommented _
  field? hs := Site.field?_uncommented hs
  firstNamed? hs hk := Site.firstNamed?_uncommented hs hk
  elements _ _ := by
    show elements 0 (Site.uncommented _).children = _
    rw [Site.children_uncommented]
    exact elements_uncommented 0 _
  castOperand? _ := Site.castOperand?_uncommented _
  text _ _ := by
    show (Site.uncommented _).text source = _
    simp [Site.text, Site.start, Site.stop]

/-- Whatever is read below a site without such comments has none either. -/
theorem tidy_visit {source : String} {s c : Site} {role r : Role} (hs : s.tree.Tidy)
    (h : .visit r c ∈ expand source role s) : c.tree.Tidy := by
  cases expand_leads h with
  | child _ hc => exact hs.child (Site.tree_mem_of_mem_children hc)
  | grandchild _ hd hc _ =>
      exact (hs.child (Site.tree_mem_of_mem_children hd)).child (Site.tree_mem_of_mem_children hc)

theorem events_uncommented (source : String) (r : Role) {s : Site} (hs : s.tree.Tidy) :
    events source (uncommenting.role r) s.uncommented =
      (events source r s).map uncommenting.event := by
  induction r, s using expand_induction source with
  | step r s ih =>
      have hexpand : expand source (uncommenting.role r) s.uncommented =
          (expand source r s).map uncommenting.step := (keeps_uncommenting source).expand_site hs r
      rw [events_eq, events_eq, hexpand, List.flatMap_map, List.map_flatMap]
      refine List.flatMap_congr fun step hstep => ?_
      cases step with
      | emit ev => rfl
      | visit r' c => exact ih r' c hstep (tidy_visit hs hstep)

theorem unitEvents_uncommented (source : String) {root : Tree} (h : root.Tidy) :
    unitEvents source root.uncommented = (unitEvents source root).map uncommenting.event := by
  show .enter .module (Site.root root).uncommented ::
    ((Site.root root).uncommented.namedChildren.flatMap (events source .value) ++ [.leave]) = _
  unfold unitEvents
  rw [Site.namedChildren_uncommented, List.map_cons, List.map_append, List.flatMap_map,
    List.map_flatMap]
  congr 2
  refine List.flatMap_congr fun c hc => ?_
  have hmem := Site.mem_children_of_mem_namedChildren hc
  exact events_uncommented source .value (h.child (Site.tree_mem_of_mem_children hmem))

/-- The graph with its sites in the tree without comments. -/
def Graph.uncommented (g : Graph) : Graph := uncommenting.graph g

/-- Comments that are not taken for syntax do not change the scope graph. -/
theorem Graph.build_uncommented (source : String) {root : Tree} (h : root.Tidy) :
    Graph.build source root.uncommented = (Graph.build source root).uncommented :=
  Relocation.build_graph (unitEvents_uncommented source h)

/-! ### Instances -/

/-- `const [/*a*/ x, ...r /*b*/] = y;` -/
def elementsTree : Tree :=
  .node ⟨0, "program", .other, true, false, [], 0, 32⟩
    [.node ⟨1, "lexical_declaration", .lexicalDeclaration, true, false, [], 0, 32⟩
      [.node ⟨2, "const", .other, false, false, [.kind], 0, 5⟩ [],
      .node ⟨3, "variable_declarator", .declarator, true, false, [], 6, 31⟩
        [.node ⟨4, "array_pattern", .arrayPattern, true, false, [.name], 6, 27⟩
          [.node ⟨5, "[", .other, false, false, [], 6, 7⟩ [],
          .node ⟨6, "comment", .comment, true, false, [], 7, 12⟩ [],
          .node ⟨7, "identifier", .identifier, true, false, [], 13, 14⟩ [],
          .node ⟨8, ",", .comma, false, false, [], 14, 15⟩ [],
          .node ⟨9, "rest_pattern", .restPattern, true, false, [], 16, 20⟩
            [.node ⟨10, "...", .other, false, false, [], 16, 19⟩ [],
            .node ⟨11, "identifier", .identifier, true, false, [], 19, 20⟩ []],
          .node ⟨12, "comment", .comment, true, false, [], 21, 26⟩ [],
          .node ⟨13, "]", .other, false, false, [], 26, 27⟩ []],
        .node ⟨14, "=", .other, false, false, [], 28, 29⟩ [],
        .node ⟨15, "identifier", .identifier, true, false, [.value], 30, 31⟩ []],
      .node ⟨16, ";", .other, false, false, [], 31, 32⟩ []]]

def elementsSource : String := "const [/*a*/ x, ...r /*b*/] = y;"

/-- The comments in an array pattern are gone, and the elements are where they were. -/
theorem Graph.build_uncommented_elements :
    elementsTree.Tidy ∧ (elementsTree.uncommented.subtrees.map (·.kind)).contains .comment = false ∧
    (Graph.build elementsSource elementsTree.uncommented).bindings.toList.map (·.pattern) =
      [[.index 0], [.index 1, .rest]] ∧
    Graph.build elementsSource elementsTree.uncommented =
      (Graph.build elementsSource elementsTree).uncommented := by
  have htidy : elementsTree.Tidy := ⟨by decide +kernel, by decide +kernel⟩
  exact ⟨htidy, by decide +kernel, by decide +kernel, Graph.build_uncommented elementsSource htidy⟩

/-- `function f(.../* c */ r) { r; }` -/
def hiddenTree : Tree :=
  .node ⟨0, "program", .other, true, false, [], 0, 31⟩
    [.node ⟨1, "function_declaration", .functionDeclaration, true, false, [], 0, 31⟩
      [.node ⟨2, "function", .other, false, false, [], 0, 8⟩ [],
      .node ⟨3, "identifier", .identifier, true, false, [.name], 9, 10⟩ [],
      .node ⟨4, "formal_parameters", .other, true, false, [.parameters], 10, 24⟩
        [.node ⟨5, "(", .other, false, false, [], 10, 11⟩ [],
        .node ⟨6, "rest_pattern", .restPattern, true, false, [], 11, 23⟩
          [.node ⟨7, "...", .other, false, false, [], 11, 14⟩ [],
          .node ⟨8, "comment", .comment, true, false, [], 14, 21⟩ [],
          .node ⟨9, "identifier", .identifier, true, false, [], 22, 23⟩ []],
        .node ⟨10, ")", .other, false, false, [], 23, 24⟩ []],
      .node ⟨11, "statement_block", .statementBlock, true, false, [.body], 25, 31⟩
        [.node ⟨12, "\x7b", .other, false, false, [], 25, 26⟩ [],
        .node ⟨13, "expression_statement", .other, true, false, [], 27, 29⟩
          [.node ⟨14, "identifier", .identifier, true, false, [], 27, 28⟩ [],
          .node ⟨15, ";", .other, false, false, [], 28, 29⟩ []],
        .node ⟨16, "\x7d", .other, false, false, [], 30, 31⟩ []]]]

def hiddenSource : String := "function f(.../* c */ r) \x7b r; \x7d"

/-- A comment after the dots hides the parameter, and what refers to it refers to nothing. -/
theorem Graph.rest_hidden_by_comment :
    (Graph.build hiddenSource hiddenTree).bindings.toList.map (·.name) = ["f"] ∧
    (Graph.build hiddenSource hiddenTree).references.toList.map (·.resolved) = [none] ∧
    (Graph.build hiddenSource hiddenTree.uncommented).bindings.toList.map (·.name) = ["f", "r"] ∧
    (Graph.build hiddenSource hiddenTree.uncommented).references.toList.map (·.resolved) =
      [some 1] := by
  decide +kernel

end HookLint.Scope
