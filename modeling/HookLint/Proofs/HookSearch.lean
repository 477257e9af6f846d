/-
The search for hook calls.

A search keeps a list of sites to look at.  It takes the first, puts the children of that site
in its place, and hands out a call as soon as it meets one, with the search that is left.  What
it will find is what a recursive walk over the listed sites finds (`Search.found`): replacing a
site by its children takes the site off the front of that walk and nothing else, so a step of
the search takes off the sites it passes and the call it hands out (`found_of_next?`), and a
search taken to its end has found all of it (`Yields.eq_found`).

The walk lists the nodes that are reached from the root through named nodes other than
comments, and it lists them as they stand in the list of all nodes of the tree
(`map_tree_preorder_sublist`).  So no call is found twice, and where nodes follow each other in
the text the calls are found from the first to the last.
-/
import HookLint.Proofs.Arguments

namespace HookLint.Syntax

/-! ### Walking a tree -/

namespace Site

/-- The second site is the first or is reached from it through named nodes other than
comments. -/
def NamedUnder : Site → Site → Prop := Relation.ReflTransGen fun s c => c ∈ s.namedChildren

theorem preorder_eq (s : Site) : s.preorder = s :: s.namedChildren.flatMap preorder := by
  rw [preorder]
  simp

theorem namedUnder_of_mem_preorder {s x : Site} (h : x ∈ s.preorder) : NamedUnder s x := by
  rw [preorder_eq] at h
  rcases List.mem_cons.mp h with rfl | h
  · exact .refl
  · obtain ⟨c, hc, hx⟩ := List.mem_flatMap.mp h
    exact .head hc (namedUnder_of_mem_preorder hx)
termination_by sizeOf s.tree
decreasing_by exact sizeOf_lt_of_mem_namedChildren hc

theorem mem_preorder_iff {s x : Site} : x ∈ s.preorder ↔ NamedUnder s x := by
  constructor
  · exact namedUnder_of_mem_preorder
  · intro h
    induction h using Relation.ReflTransGen.head_induction_on with
    | refl =>
        rw [preorder_eq]
        exact List.mem_cons_self
    | head hc _ ih =>
        rw [preorder_eq]
        exact List.mem_cons_of_mem _ (List.mem_flatMap.mpr ⟨_, hc, ih⟩)

/-- Where every part is in its counterpart, some of the parts are in all of the counterparts. -/
theorem flatMap_filter_sublist {α β : Type} {p : α → Bool} {f g : α → List β} {l : List α}
    (h : ∀ a ∈ l, p a = true → (f a).Sublist (g a)) :
    ((l.filter p).flatMap f).Sublist (l.flatMap g) := by
  induction l with
  | nil => exact .slnil
  | cons a l ih =>
      have hrest := ih fun b hb => h b (List.mem_cons_of_mem _ hb)
      rw [List.flatMap_cons]
      by_cases hp : p a = true
      · rw [List.filter_cons_of_pos hp, List.flatMap_cons]
        exact (h a List.mem_cons_self hp).append hrest
      · rw [List.filter_cons_of_neg hp]
        exact hrest.trans (List.sublist_append_right _ _)

/-- A walk passes nodes over, but keeps the order of all nodes. -/
theorem map_tree_preorder_sublist (s : Site) :
    (s.preorder.map (·.tree)).Sublist s.tree.subtrees := by
  have hall : s.tree.children.flatMap Tree.subtrees =
      s.children.flatMap fun c => c.tree.subtrees := by
    rw [children, List.flatMap_map]
    rfl
  rw [preorder_eq, List.map_cons, List.map_flatMap, Tree.subtrees_eq, hall]
  refine .cons_cons _ (flatMap_filter_sublist fun c hc _ => ?_)
  exact map_tree_preorder_sublist c
termination_by sizeOf s.tree
decreasing_by exact sizeOf_lt_of_mem_children hc

end Site

namespace Tree

/-- Nodes stand in the range of their parent and follow each other in the text. -/
def InOrder (t : Tree) : Prop :=
  ∀ u ∈ t.subtrees, u.label.start ≤ u.label.stop ∧
    (∀ c ∈ u.children, u.label.start ≤ c.label.start ∧ c.label.stop ≤ u.label.stop) ∧
    u.children.Pairwise fun c d => c.label.stop ≤ d.label.start

instance (t : Tree) : Decidable t.InOrder :=
  inferInstanceAs (Decidable (∀ u ∈ t.subtrees, _ ∧ _ ∧ _))

namespace InOrder

theorem child {t c : Tree} (h : t.InOrder) (hc : c ∈ t.children) : c.InOrder :=
  fun u hu => h u (mem_subtrees_of_child hc hu)

theorem range_le {t u : Tree} (h : t.InOrder) (hu : u ∈ t.subtrees) :
    t.label.start ≤ u.label.start ∧ u.label.stop ≤ t.label.stop := by
  rw [subtrees_eq] at hu
  rcases List.mem_cons.mp hu with rfl | hu
  · exact ⟨Nat.le_refl _, Nat.le_refl _⟩
  · obtain ⟨c, hc, hu⟩ := List.mem_flatMap.mp hu
    obtain ⟨hstart, hstop⟩ := (h t (self_mem_subtrees t)).2.1 c hc
    obtain ⟨hstart', hstop'⟩ := (h.child hc).range_le hu
    exact ⟨Nat.le_trans hstart hstart', Nat.le_trans hstop' hstop⟩
termination_by sizeOf t
decreasing_by exact sizeOf_lt_of_mem_children hc

/-- The list of all nodes is in order of their starts. -/
theorem pairwise_subtrees {t : Tree} (h : t.InOrder) :
    t.subtrees.Pairwise fun a b => a.label.start ≤ b.label.start := by
  have hroot : ∀ u ∈ t.children.flatMap subtrees, t.label.start ≤ u.label.start := by
    intro u hu
    refine (h.range_le ?_).1
    rw [subtrees_eq]
    exact List.mem_cons_of_mem _ hu
  rw [subtrees_eq, List.pairwise_cons, List.pairwise_flatMap]
  refine ⟨hroot, fun c hc => (h.child hc).pairwise_subtrees, ?_⟩
  refine (h t (self_mem_subtrees t)).2.2.imp_of_mem fun {c d} hc hd hcd x hx y hy => ?_
  calc x.label.start
    _ ≤ x.label.stop := (h x (mem_subtrees_of_child hc hx)).1
    _ ≤ c.label.stop := ((h.child hc).range_le hx).2
    _ ≤ d.label.start := hcd
    _ ≤ y.label.start := ((h.child hd).range_le hy).1
termination_by sizeOf t
decreasing_by exact sizeOf_lt_of_mem_children hc

end InOrder

end Tree

end HookLint.Syntax

namespace HookLint.Hook

open HookLint.Syntax

variable {source : String} {convention : Convention}

namespace Search

variable {s t : Search} {call : Call}

/-! ### What a search finds -/

/-- The calls that a recursive walk over the listed sites meets, in order. -/
def found (source : String) (convention : Convention) (s : Search) : List Call :=
  ((s.pending.flatMap Site.preorder).filter (·.kind = .call)).filterMap
    (Call.ofSite? source convention)

/-- Looking at a site takes it off the front of the walk. -/
theorem found_cons (site : Site) (rest : List Site) :
    found source convention ⟨site :: rest⟩ =
      (if site.kind = .call then Call.ofSite? source convention site else none).toList ++
        found source convention ⟨site.namedChildren ++ rest⟩ := by
  have hwalk : (site :: rest).flatMap Site.preorder =
      site :: (site.namedChildren ++ rest).flatMap Site.preorder := by
    rw [List.flatMap_cons, Site.preorder_eq, List.cons_append, List.flatMap_append]
  unfold found
  rw [hwalk]
  by_cases hkind : site.kind = .call
  · rw [List.filter_cons_of_pos (by simpa using hkind), if_pos hkind]
    cases hcall : Call.ofSite? source convention site <;> simp [hcall]
  · rw [List.filter_cons_of_neg (by simpa using hkind), if_neg hkind]
    rfl

/-- A search that hands out no call has none to find. -/
theorem found_of_next?_none (h : s.next? source convention = none) :
    s.found source convention = [] := by
  fun_induction next? source convention s with
  | case1 => rfl
  | case2 => contradiction
  | case3 site rest remaining hnone ih =>
      rw [dite_eq_ite] at hnone
      rw [found_cons, hnone, Option.toList_none, List.nil_append, ih h]

/-- The call that is handed out is the first to be found, and the search that is left finds the
others. -/
theorem found_of_next? (h : s.next? source convention = some (call, t)) :
    s.found source convention = call :: t.found source convention := by
  fun_induction next? source convention s with
  | case1 => contradiction
  | case2 site rest remaining call' hcall =>
      injection h with h
      injection h with hcall' ht
      rw [dite_eq_ite] at hcall
      rw [found_cons, hcall, ← hcall', ← ht]
      rfl
  | case3 site rest remaining hnone ih =>
      rw [dite_eq_ite] at hnone
      rw [found_cons, hnone, Option.toList_none, List.nil_append, ih h]

/-! ### Taking a search to its end -/

/-- Taking calls from a search until there is none gives these. -/
inductive Yields (source : String) (convention : Convention) : Search → List Call → Prop
  | done {s : Search} (h : s.next? source convention = none) : Yields source convention s []
  | call {s t : Search} {call : Call} {calls : List Call}
      (h : s.next? source convention = some (call, t)) (hrest : Yields source convention t calls) :
      Yields source convention s (call :: calls)

/-- The search that is left when a number of calls have been taken from a search. -/
def after (source : String) (convention : Convention) : Nat → Search → Search
  | 0, s => s
  | n + 1, s =>
    match s.next? source convention with
    | none => ⟨[]⟩
    | some (_, t) => after source convention n t

theorem yields_toList (s : Search) : Yields source convention s (s.toList source convention) := by
  fun_induction toList source convention s with
  | case1 s h => exact .done h
  | case2 s call rest h ih => exact .call h ih

theorem Yields.eq_found {calls : List Call} (h : Yields source convention s calls) :
    calls = s.found source convention := by
  induction h with
  | done h => rw [found_of_next?_none h]
  | call h _ ih => rw [found_of_next? h, ih]

theorem Yields.after {calls : List Call} (h : Yields source convention s calls) (n : Nat) :
    Yields source convention (s.after source convention n) (calls.drop n) := by
  induction h generalizing n with
  | done h =>
      cases n with
      | zero => exact .done h
      | succ n =>
          rw [Search.after, h, List.drop_nil]
          exact .done (by rw [next?])
  | call h hrest ih =>
      cases n with
      | zero => exact .call h hrest
      | succ n =>
          rw [Search.after, h]
          exact ih n

end Search

/-! ### The hook calls of a tree -/

section Calls

variable (source : String) (convention : Convention) (root : Tree)

theorem yields_calls :
    Search.Yields source convention (Search.ofRoot root) (calls source convention root) :=
  Search.yields_toList _

theorem calls_eq :
    calls source convention root =
      ((Site.root root).preorder.filter (·.kind = .call)).filterMap
        (Call.ofSite? source convention) := by
  rw [(yields_calls source convention root).eq_found, Search.found, Search.ofRoot,
    List.flatMap_singleton]

/-- The calls stand at sites of the walk, in its order. -/
theorem map_site_calls_sublist :
    ((calls source convention root).map (·.site)).Sublist (Site.root root).preorder := by
  have hsite : ∀ site, (Call.ofSite? source convention site).map (·.site) =
      Option.guard (fun s => (Call.ofSite? source convention s).isSome) site := by
    intro site
    cases hcall : Call.ofSite? source convention site with
    | none => simp [Option.guard, hcall]
    | some call => simp [Option.guard, hcall, (Call.parts_of_ofSite? hcall).1]
  rw [calls_eq, List.map_filterMap]
  simp only [hsite, List.filterMap_eq_filter]
  exact List.filter_sublist.trans List.filter_sublist

theorem mem_calls_iff (call : Call) :
    call ∈ calls source convention root ↔
      ∃ site, (Site.root root).NamedUnder site ∧ site.kind = .call ∧
        Call.ofSite? source convention site = some call := by
  rw [calls_eq, List.mem_filterMap]
  simp only [List.mem_filter, Site.mem_preorder_iff, decide_eq_true_eq, and_assoc]

/-- The trees of the calls are among all nodes of the tree, in the same order. -/
theorem map_tree_calls_sublist :
    ((calls source convention root).map (·.site.tree)).Sublist root.subtrees := by
  have hsites := (map_site_calls_sublist source convention root).map (·.tree)
  rw [List.map_map] at hsites
  exact hsites.trans (Site.map_tree_preorder_sublist (Site.root root))

/-- A search finds every hook call once and in order.  Taken to its end, it hands out the calls that
a recursive walk meets, in the order of the walk: those at the call expressions that are reached
from the root through named nodes other than comments.  No node is met twice, and the calls follow
each other in the text when the nodes of the tree do.  The search as it is after some calls, or a
copy of it, finds the calls after those. -/
theorem search_yields_calls :
    (∀ n, Search.Yields source convention ((Search.ofRoot root).after source convention n)
      ((calls source convention root).drop n)) ∧
    calls source convention root =
      ((Site.root root).preorder.filter (·.kind = .call)).filterMap
        (Call.ofSite? source convention) ∧
    (∀ call, call ∈ calls source convention root ↔
      ∃ site, (Site.root root).NamedUnder site ∧ site.kind = .call ∧
        Call.ofSite? source convention site = some call) ∧
    (root.Numbered → ((calls source convention root).map (·.site.id)).Nodup) ∧
    (root.InOrder → (calls source convention root).Pairwise fun a b =>
      a.site.start ≤ b.site.start) := by
  have hnodes := map_tree_calls_sublist source convention root
  refine ⟨(yields_calls source convention root).after, calls_eq source convention root,
    mem_calls_iff source convention root, ?_, ?_⟩
  · intro hnum
    have hids := hnodes.map (·.id)
    rw [List.map_map] at hids
    exact hnum.sublist hids
  · intro horder
    have hstarts := horder.pairwise_subtrees.sublist hnodes
    rwa [List.pairwise_map] at hstarts

end Calls

/-- A hook call in the callback of another one. -/
def memoInMemoSource : String := "useMemo(() => useMemo(() => 1))"

/-- The tree of `memoInMemoSource`, brackets and arrows left out. -/
def memoInMemoTree : Tree :=
  .node ⟨0, "program", .other, true, false, [], 0, 31⟩
    [.node ⟨1, "call_expression", .call, true, false, [], 0, 31⟩
      [.node ⟨2, "identifier", .identifier, true, false, [.function], 0, 7⟩ [],
      .node ⟨3, "arguments", .arguments, true, false, [.arguments], 7, 31⟩
        [.node ⟨4, "arrow_function", .arrowFunction, true, false, [], 8, 30⟩
          [.node ⟨5, "formal_parameters", .other, true, false, [.parameters], 8, 10⟩ [],
          .node ⟨6, "call_expression", .call, true, false, [.body], 14, 30⟩
            [.node ⟨7, "identifier", .identifier, true, false, [.function], 14, 21⟩ [],
            .node ⟨8, "arguments", .arguments, true, false, [.arguments], 21, 30⟩
              [.node ⟨9, "arrow_function", .arrowFunction, true, false, [], 22, 29⟩
                [.node ⟨10, "formal_parameters", .other, true, false, [.parameters], 22, 24⟩ [],
                .node ⟨11, "number", .number, true, false, [.body], 28, 29⟩ []]]]]]]]

/-- The outer call is found first.  What is left of the search then finds the inner one. -/
theorem search_yields_calls_nested :
    memoInMemoTree.Numbered ∧ memoInMemoTree.InOrder ∧
    (calls memoInMemoSource .default memoInMemoTree).map (·.site.start) = [0, 14] ∧
    ((calls memoInMemoSource .default memoInMemoTree).map (·.site.id)).Nodup ∧
    (calls memoInMemoSource .default memoInMemoTree).Pairwise
      (fun a b => a.site.start ≤ b.site.start) ∧
    Search.Yields memoInMemoSource .default
      ((Search.ofRoot memoInMemoTree).after memoInMemoSource .default 1)
      ((calls memoInMemoSource .default memoInMemoTree).drop 1) := by
  have hnum : memoInMemoTree.Numbered := by decide
  have horder : memoInMemoTree.InOrder := by decide
  obtain ⟨hyields, -, -, honce, hstarts⟩ :=
    search_yields_calls memoInMemoSource .default memoInMemoTree
  exact ⟨hnum, horder, by decide +kernel, honce hnum, hstarts horder, hyields 1⟩

end HookLint.Hook
