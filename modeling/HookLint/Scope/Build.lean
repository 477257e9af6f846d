/-
Building a scope graph from events.

The builder keeps the regions it is inside of as a stack, innermost first.  A name
declared twice in one scope keeps its first declaration.  References are resolved
after all events, when every declaration is known, so the order of a declaration
and its uses does not matter.
-/
import HookLint.Scope.Events

namespace HookLint.Scope

open HookLint.Syntax

/-- A graph under construction. -/
structure Builder where
  graph : Graph
  /-- the open regions, innermost first -/
  stack : List ScopeId

namespace Builder

def empty : Builder := ⟨Graph.empty, []⟩

/-- The innermost open region. -/
def current (b : Builder) : ScopeId := b.stack.headD moduleScope

/-- The innermost open function or module region. -/
def hoistTarget (b : Builder) : ScopeId :=
  (b.stack.find? fun s =>
    (b.graph.scopes[s]?).any fun scope => scope.kind == .function || scope.kind == .module).getD
    moduleScope

/-- The scope a declaration lands in. -/
def home (b : Builder) : Target → ScopeId
  | .current => b.current
  | .hoisted => b.hoistTarget
  | .module => moduleScope

/-- Opens a region. -/
def enter (b : Builder) (kind : ScopeKind) (site : Site) : Builder :=
  let id := b.graph.scopes.size
  let scope : ScopeRecord := { kind, parent := b.stack.head?, site, names := [], references := [] }
  { graph :=
      { b.graph with
        scopes := b.graph.scopes.push scope
        scopeNodes := (site.id, id) :: b.graph.scopeNodes }
    stack := id :: b.stack }

/-- Closes the innermost region. -/
def leave (b : Builder) : Builder := { b with stack := b.stack.tail }

/-- Declares a name, unless its scope has it already or it is empty. -/
def declare (b : Builder) (d : Declaration) : Builder :=
  let scope := b.home d.target
  if d.name = "" ∨ (b.graph.own? scope d.name).isSome then b
  else
    let id := b.graph.bindings.size
    let binding : Binding :=
      { name := d.name, kind := d.kind, scope, ident := d.ident, declaration := d.declaration
        init := d.init, pattern := d.pattern }
    { b with
      graph :=
        { b.graph with
          bindings := b.graph.bindings.push binding
          uses := b.graph.uses.push []
          scopes := b.graph.scopes.modify scope fun s =>
            { s with names := s.names ++ [(d.name, id)] } } }

/-- Records an occurrence of a name. -/
def refer (b : Builder) (name : String) (site : Site) (access : Access) : Builder :=
  let id := b.graph.references.size
  let reference : Reference := { name, site, scope := b.current, access, resolved := none }
  { b with
    graph :=
      { b.graph with
        references := b.graph.references.push reference
        referenceNodes := (site.id, id) :: b.graph.referenceNodes } }

def step (b : Builder) : Event → Builder
  | .enter kind site => b.enter kind site
  | .leave => b.leave
  | .declare d => b.declare d
  | .refer name site access => b.refer name site access

/-- The builder after a list of events. -/
def run (b : Builder) (events : List Event) : Builder := events.foldl step b

end Builder

namespace Graph

/-- Resolves one reference and enters it in the tables of its scope and binding. -/
def resolveOne (g : Graph) (id : ReferenceId) : Graph :=
  match g.references[id]? with
  | none => g
  | some r =>
    match g.owner? r.scope r.name with
    | none => g
    | some (owner, binding) =>
      { g with
        references := g.references.modify id fun r => { r with resolved := some binding }
        scopes := g.scopes.modify owner fun s => { s with references := s.references ++ [id] }
        uses := g.uses.modify binding fun refs => refs ++ [id] }

/-- Resolves every reference. -/
def resolve (g : Graph) : Graph := (List.range g.references.size).foldl resolveOne g

/-- The scope graph of a source unit. -/
def build (source : String) (root : Tree) : Graph :=
  (Builder.empty.run (unitEvents source root)).graph.resolve

end Graph

end HookLint.Scope
