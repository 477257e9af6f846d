/-
Places in a tree.

A site is a subtree together with the trees above it, nearest first.  Walking up
is recursion on that list, and walking down extends it, so both directions are
total without an index of parents.
-/
import HookLint.Syntax.Tree
import HookLint.Text.Slice

namespace HookLint.Syntax

/-- A subtree and what stands above it. -/
structure Site where
  tree : Tree
  /-- the enclosing trees, nearest first -/
  above : List Tree
  deriving Inhabited

namespace Site

abbrev label (s : Site) : Label := s.tree.label
abbrev kind (s : Site) : Kind := s.tree.label.kind
abbrev id (s : Site) : Nat := s.tree.label.id
abbrev start (s : Site) : Nat := s.tree.label.start
abbrev stop (s : Site) : Nat := s.tree.label.stop

/-- The whole tree. -/
def root (t : Tree) : Site := ⟨t, []⟩

/-- The site of the enclosing tree. -/
def parent? (s : Site) : Option Site :=
  match s.above with
  | [] => none
  | p :: rest => some ⟨p, rest⟩

/-- The site of a child of `s`. -/
def below (s : Site) (child : Tree) : Site := ⟨child, s.tree :: s.above⟩

/-- All children, tokens and comments included. -/
def children (s : Site) : List Site := s.tree.children.map s.below

/-- A named node that is not a comment. -/
def isProper (s : Site) : Bool := s.label.named && s.kind != .comment

/-- The named children that are not comments. -/
def namedChildren (s : Site) : List Site := s.children.filter isProper

/-- The first named child, which may be a comment. -/
def firstNamed? (s : Site) : Option Site := s.children.find? (·.label.named)

/-- The child that fills a field. -/
def field? (s : Site) (f : Field) : Option Site := s.children.find? (·.label.fields.contains f)

/-- `child` is the node that fills field `f` of `s`. -/
def isField (s : Site) (f : Field) (child : Site) : Bool := (s.field? f).any (·.id == child.id)

/-- The source text of the site, empty when its range is not a piece of the source. -/
def text (s : Site) (source : String) : String := (Text.slice? source s.start s.stop).getD ""

/-- The bytes of `inner` are among those of `s`. -/
def covers (s inner : Site) : Bool := s.start ≤ inner.start && inner.stop ≤ s.stop

/-! ### Going down makes the tree smaller -/

theorem sizeOf_lt_of_mem_children {c s : Site} (h : c ∈ s.children) :
    sizeOf c.tree < sizeOf s.tree := by
  simp only [children, List.mem_map] at h
  obtain ⟨t, ht, rfl⟩ := h
  exact Tree.sizeOf_lt_of_mem_children ht

theorem sizeOf_lt_of_mem_namedChildren {c s : Site} (h : c ∈ s.namedChildren) :
    sizeOf c.tree < sizeOf s.tree :=
  sizeOf_lt_of_mem_children (List.mem_filter.mp h).1

theorem sizeOf_lt_of_firstNamed? {c s : Site} (h : s.firstNamed? = some c) :
    sizeOf c.tree < sizeOf s.tree :=
  sizeOf_lt_of_mem_children (List.mem_of_find?_eq_some h)

theorem sizeOf_lt_of_field? {c s : Site} {f : Field} (h : s.field? f = some c) :
    sizeOf c.tree < sizeOf s.tree :=
  sizeOf_lt_of_mem_children (List.mem_of_find?_eq_some h)

/-! ### The whole subtree in pre-order -/

/-- `s` and every named non-comment site reachable below it through such sites, in
pre-order. -/
def preorder (s : Site) : List Site :=
  s :: s.namedChildren.attach.flatMap fun ⟨c, _⟩ => preorder c
termination_by sizeOf s.tree
decreasing_by exact sizeOf_lt_of_mem_namedChildren ‹_›

end Site

end HookLint.Syntax
