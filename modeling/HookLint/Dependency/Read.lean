/-
What a callback reads and writes from outside itself.

A name that occurs inside the callback and is declared outside is a read, a write or
both.  A read is extended into the longest member path that is safe to depend on.
Climbing stops

* at an optional link: `props.foo?.bar` gives `props.foo`;
* at a computed access, unless its key is a string that could follow a dot;
* before `.current`, the mutable slot of a ref;
* after a member that is called: `props.foo()` gives `props.foo`;
* before a member that is assigned: `obj.x = 1` gives `obj`.

Casts and parentheses are climbed through at every step.
-/
import HookLint.Dependency.Path
import HookLint.Scope.Build

namespace HookLint.Dependency

open HookLint.Syntax HookLint.Scope

/-! ### The path of a read -/

/-- The property an access adds to its object, for a plain member access. -/
def accessKey? (source : String) (access object : Site) : Option String :=
  if access.isField .object object && (access.field? .optionalChain).isNone then
    match access.kind with
    | .member => (access.field? .property).map (·.text source)
    | .subscript => access.subscriptKey? source
    | _ => none
  else none

/-- The member, with its wrapping, is what a call calls. -/
def isCalled (member : Site) : Bool :=
  let member := member.outermost
  member.parent?.any fun call => call.kind == .call && call.isField .function member

/-- The member, with its wrapping, is the target of an assignment. -/
def isAssigned (member : Site) : Bool :=
  let member := member.outermost
  member.parent?.any fun parent =>
    match parent.kind with
    | .assignment | .augmentedAssignment => parent.isField .left member
    | .update => parent.isField .argument member
    | _ => false

/-- Extends a path by the accesses above `t`, as far as is safe. -/
def climb (source : String) (path : Path) (t : Tree) : List Tree → Path
  | [] => path
  | p :: above =>
    let parent : Site := ⟨p, above⟩
    let here : Site := ⟨t, p :: above⟩
    if parent.wraps here then climb source path p above
    else match accessKey? source parent here with
      | none => path
      | some key =>
        if key = "current" ∨ isAssigned parent = true then path
        else if isCalled parent then path.push key
        else climb source (path.push key) p above

/-- The longest member path from an identifier that is safe to depend on. -/
def pathAt (source : String) (ident : Site) : Path :=
  climb source ⟨ident.text source⟩ ident.tree ident.above

/-! ### Reads and writes -/

/-- A read of a binding declared outside the callback. -/
structure Read where
  binding : BindingId
  /-- the identifier -/
  site : Site
  path : Path

/-- A write to a binding declared outside the callback. -/
structure Write where
  binding : BindingId
  name : String
  /-- the assignment or update -/
  site : Site

/-- The nearest assignment or update above the trees given, or `default` without one. -/
def assignmentAbove (default : Site) : List Tree → Site
  | [] => default
  | p :: above =>
    match p.kind with
    | .assignment | .augmentedAssignment | .update => ⟨p, above⟩
    | _ => assignmentAbove default above

/-- The assignment or update a written identifier belongs to. -/
def writeSite (ident : Site) : Site := assignmentAbove ident ident.above

/-- What a callback reads and writes from outside, by position. -/
structure Extraction where
  reads : List Read
  writes : List Write

def Extraction.empty : Extraction := ⟨[], []⟩

/-- The references inside a scope that mean a binding declared outside it, with the
binding. -/
def outerReferences (g : Graph) (scope : ScopeId) : List (Reference × BindingId) :=
  g.references.toList.filterMap fun r =>
    match r.resolved with
    | none => none
    | some b =>
      if g.isWithin r.scope scope && !g.declaredWithin b scope then some (r, b) else none

/-- Collects the reads and writes of a callback. -/
def extract (g : Graph) (source : String) (callback : Site) : Extraction :=
  match g.scopeAt? callback with
  | none => .empty
  | some scope =>
    let outer := outerReferences g scope
    let reads := (outer.filter (·.1.access.isRead)).map fun (r, b) =>
      { binding := b, site := r.site, path := pathAt source r.site : Read }
    let writes := (outer.filter (·.1.access.isWrite)).map fun (r, b) =>
      { binding := b, name := r.name, site := writeSite r.site : Write }
    { reads := reads.mergeSort fun a b => a.site.start ≤ b.site.start
      writes := writes.mergeSort fun a b => a.site.start ≤ b.site.start }

end HookLint.Dependency
