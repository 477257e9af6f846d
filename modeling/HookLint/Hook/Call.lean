/-
Hook calls with an inline callback.

A search keeps the sites still to be looked at.  Taking the next call from it leaves
a search for the remaining ones, so a search can be stopped and resumed anywhere.
-/
import HookLint.Hook.Convention
import HookLint.Syntax.Expression

namespace HookLint.Hook

open HookLint.Syntax

/-- A call of a hook with a function written in place. -/
structure Call where
  site : Site
  callee : Site
  /-- the callee as written -/
  display : String
  /-- the hook's own name -/
  name : String
  /-- the callback, with casts and parentheses removed -/
  callback : Site
  callbackIndex : Nat
  /-- the argument after the callback, as written -/
  dependencies : Option Site

/-- The hook call a call expression makes. -/
def Call.ofSite? (source : String) (convention : Convention) (site : Site) : Option Call := do
  let callee ← site.field? .function
  let name ← callee.calleeName? source
  guard (convention.isHook name)
  let arguments ← site.field? .arguments
  guard (arguments.kind = .arguments)
  let args := arguments.namedChildren
  let index := Hook.callbackIndex name
  let callback := (← args[index]?).unwrap
  guard callback.kind.isInlineFunction
  return {
    site, callee, display := callee.text source, name, callback, callbackIndex := index
    dependencies := args[index + 1]? }

/-- The sites still to be looked at, in order. -/
structure Search where
  pending : List Site

namespace Search

/-- A search of a whole tree. -/
def ofRoot (root : Tree) : Search := ⟨[Site.root root]⟩

/-- The sum of the sizes of some sites. -/
noncomputable def totalSize : List Site → Nat
  | [] => 0
  | site :: sites => sizeOf site.tree + totalSize sites

theorem totalSize_append (a b : List Site) : totalSize (a ++ b) = totalSize a + totalSize b := by
  induction a with
  | nil => simp [totalSize]
  | cons site sites ih => simp only [List.cons_append, totalSize, ih]; omega

theorem totalSize_filter_le (p : Site → Bool) (sites : List Site) :
    totalSize (sites.filter p) ≤ totalSize sites := by
  induction sites with
  | nil => simp
  | cons site sites ih =>
    simp only [List.filter_cons]
    split <;> simp only [totalSize] <;> omega

theorem totalSize_below_lt (s : Site) (trees : List Tree) :
    totalSize (trees.map s.below) < sizeOf trees := by
  induction trees with
  | nil => simp [totalSize]
  | cons t ts ih =>
    simp only [List.map_cons, totalSize, List.cons.sizeOf_spec, Site.below] at ih ⊢
    omega

/-- The children of a site are together smaller than it. -/
theorem totalSize_namedChildren_lt (s : Site) : totalSize s.namedChildren < sizeOf s.tree := by
  refine Nat.lt_of_le_of_lt (totalSize_filter_le _ _) ?_
  refine Nat.lt_of_lt_of_le (totalSize_below_lt s s.tree.children) ?_
  cases s.tree with
  | node l cs => simp only [Tree.children, Tree.node.sizeOf_spec]; omega

/-- How much is left to look at. -/
noncomputable def weight (s : Search) : Nat := totalSize s.pending

theorem weight_expand_lt (site : Site) (rest : List Site) :
    weight ⟨site.namedChildren ++ rest⟩ < weight ⟨site :: rest⟩ := by
  have := totalSize_namedChildren_lt site
  simp only [weight, totalSize_append, totalSize]
  omega

/-- The next hook call, and the search for those after it. -/
def next? (source : String) (convention : Convention) (s : Search) : Option (Call × Search) :=
  match s with
  | ⟨[]⟩ => none
  | ⟨site :: rest⟩ =>
    let remaining : Search := ⟨site.namedChildren ++ rest⟩
    match if site.kind = .call then Call.ofSite? source convention site else none with
    | some call => some (call, remaining)
    | none => next? source convention remaining
termination_by s.weight
decreasing_by exact weight_expand_lt site rest

/-- A search gets smaller with every call taken from it. -/
theorem weight_lt_of_next? {source : String} {convention : Convention} {s t : Search} {call : Call}
    (h : s.next? source convention = some (call, t)) : t.weight < s.weight := by
  fun_induction next? source convention s with
  | case1 => contradiction
  | case2 site rest remaining call' hc =>
    injection h with h
    injection h with _ ht
    subst ht
    exact weight_expand_lt site rest
  | case3 site rest remaining hc ih =>
    exact Nat.lt_trans (ih h) (weight_expand_lt site rest)

/-- All calls a search still finds, in order. -/
def toList (source : String) (convention : Convention) (s : Search) : List Call :=
  match _h : s.next? source convention with
  | none => []
  | some (call, rest) => call :: toList source convention rest
termination_by s.weight
decreasing_by exact weight_lt_of_next? _h

end Search

/-- The hook calls of a tree, in source order. -/
def calls (source : String) (convention : Convention) (root : Tree) : List Call :=
  (Search.ofRoot root).toList source convention

end HookLint.Hook
