/-
Casts, assertions and parentheses.

These wrap an expression without changing its value.  `unwrap` peels them off and
`outermost` climbs back out of them; every other module looks at an expression
through these two, so none of them mentions type syntax again.

The grammars have no typed parentheses `(e : T)`, so such a cast is parenthesised
syntax with an error inside.  Its operand is the single expression before the
colon, once error nodes are replaced by their children.
-/
import HookLint.Syntax.Site

namespace HookLint.Syntax.Site

/-- The tokens of `s`, with error nodes replaced by their children. -/
def flattened (s : Site) : List Site :=
  s.children.flatMap fun c => if c.kind = .error then c.children else [c]

/-- What stands before the first colon, when there is one. -/
def beforeColon? (tokens : List Site) : Option (List Site) :=
  if tokens.any (·.kind == .colon) then some (tokens.takeWhile (·.kind != .colon)) else none

/-- The operand of a typed-parentheses cast `(e : T)`. -/
def castOperand? (s : Site) : Option Site :=
  if s.kind = .parenthesized ∧ s.label.hasError = true then
    match beforeColon? s.flattened with
    | none => none
    | some tokens =>
      match tokens.filter fun t => t.isProper && t.kind != .error with
      | [operand] => some operand
      | _ => none
  else none

/-- The expression a wrapper wraps. -/
def wrapped? (s : Site) : Option Site :=
  match s.kind with
  | .typeAssertion => s.namedChildren.getLast?
  | .parenthesized =>
    match s.castOperand? with
    | some operand => some operand
    | none => s.namedChildren.head?
  | .assertion => s.namedChildren.head?
  | _ => none

theorem sizeOf_lt_of_mem_flattened {c s : Site} (h : c ∈ s.flattened) :
    sizeOf c.tree < sizeOf s.tree := by
  simp only [flattened, List.mem_flatMap] at h
  obtain ⟨d, hd, hc⟩ := h
  have hds := sizeOf_lt_of_mem_children hd
  split at hc
  · exact Nat.lt_trans (sizeOf_lt_of_mem_children hc) hds
  · rw [List.mem_singleton.mp hc]; exact hds

theorem mem_flattened_of_castOperand? {c s : Site} (h : s.castOperand? = some c) :
    c ∈ s.flattened := by
  unfold castOperand? beforeColon? at h
  split at h <;> try contradiction
  split at h <;> try contradiction
  rename_i tokens htokens
  split at htokens <;> try contradiction
  injection htokens with htokens
  split at h <;> try contradiction
  rename_i operand hfilter
  injection h with h
  have hmem : c ∈ tokens := by
    refine (List.mem_filter (p := fun t => t.isProper && t.kind != .error)).mp ?_ |>.1
    rw [hfilter, h]
    exact List.mem_singleton_self c
  rw [← htokens] at hmem
  exact (List.takeWhile_sublist _).subset hmem

theorem sizeOf_lt_of_wrapped? {c s : Site} (h : s.wrapped? = some c) :
    sizeOf c.tree < sizeOf s.tree := by
  unfold wrapped? at h
  split at h
  · exact sizeOf_lt_of_mem_namedChildren (List.mem_of_getLast? h)
  · split at h
    · rename_i operand hop
      injection h with h
      exact sizeOf_lt_of_mem_flattened (mem_flattened_of_castOperand? (h ▸ hop))
    · exact sizeOf_lt_of_mem_namedChildren (List.mem_of_head? h)
  · exact sizeOf_lt_of_mem_namedChildren (List.mem_of_head? h)
  · contradiction

/-- The expression left when all wrapping is peeled off. -/
def unwrap (s : Site) : Site :=
  match _h : s.wrapped? with
  | some inner => unwrap inner
  | none => s
termination_by sizeOf s.tree
decreasing_by exact sizeOf_lt_of_wrapped? _h

theorem sizeOf_unwrap_le (s : Site) : sizeOf s.unwrap.tree ≤ sizeOf s.tree := by
  fun_induction unwrap s with
  | case1 s inner h ih => exact Nat.le_trans ih (Nat.le_of_lt (sizeOf_lt_of_wrapped? h))
  | case2 => exact Nat.le_refl _

/-- `s` wraps `inner`. -/
def wraps (s inner : Site) : Bool := s.wrapped?.any (·.id == inner.id)

/-- Climbs from `t` out of the wrappers among the trees above it. -/
def outermostFrom (t : Tree) : List Tree → Site
  | [] => ⟨t, []⟩
  | p :: above =>
    if wraps ⟨p, above⟩ ⟨t, p :: above⟩ then outermostFrom p above else ⟨t, p :: above⟩

/-- The outermost wrapper around `s`, or `s` itself. -/
def outermost (s : Site) : Site := outermostFrom s.tree s.above

end HookLint.Syntax.Site
