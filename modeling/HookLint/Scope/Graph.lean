/-
Scope graphs.

Scopes, bindings and references live in three tables and refer to each other by
index, numbered in the order they were met.  A scope knows its parent's index, a
binding the scope it is declared in, a reference the scope it occurs in and the
binding it resolves to.

A name seen from a scope means the binding of the first scope on the parent chain
that declares it: `lookup?`.
-/
import HookLint.Syntax.Site

namespace HookLint.Scope

open HookLint.Syntax

abbrev ScopeId := Nat
abbrev BindingId := Nat
abbrev ReferenceId := Nat

/-- The scope every other scope is nested in. -/
def moduleScope : ScopeId := 0

/-- Kinds of lexical region. -/
inductive ScopeKind where
  | module
  | function
  | block
  /-- a loop header, which holds the loop's variables -/
  | loop
  | catchClause
  /-- a class expression, which holds the class's own name -/
  | classBody
  deriving DecidableEq, Repr, Inhabited

/-- The three kinds of variable declaration. -/
inductive VariableKind where
  | constVar
  | letVar
  | varVar
  deriving DecidableEq, Repr

/-- How a name was declared. -/
inductive BindingKind where
  | parameter
  | variable (kind : VariableKind)
  | imported
  | functionDeclaration
  /-- the name of a function expression, visible only inside it -/
  | functionName
  | classDeclaration
  | catchParameter
  | enumeration
  deriving DecidableEq, Repr

/-- One step from an initializer down to a destructured name. -/
inductive PatternStep where
  /-- the position in an array pattern -/
  | index (position : Nat)
  /-- the property of an object pattern -/
  | key (name : String)
  /-- what the pattern leaves over -/
  | rest
  deriving DecidableEq, Repr

/-- Whether an occurrence of a name reads it, writes it, or both. -/
inductive Access where
  | read
  | write
  | readWrite
  deriving DecidableEq, Repr

def Access.isRead : Access → Bool
  | read | readWrite => true
  | write => false

def Access.isWrite : Access → Bool
  | write | readWrite => true
  | read => false

/-- A lexical region. -/
structure ScopeRecord where
  kind : ScopeKind
  parent : Option ScopeId
  /-- the syntax that opened the scope -/
  site : Site
  /-- the names declared here, in order of declaration -/
  names : List (String × BindingId)
  /-- the references that resolve to a name declared here -/
  references : List ReferenceId
  deriving Inhabited

/-- A declared name. -/
structure Binding where
  name : String
  kind : BindingKind
  scope : ScopeId
  /-- the identifier that declares the name -/
  ident : Site
  /-- the declarator, function, class or import -/
  declaration : Site
  /-- the initializer of the declarator -/
  init : Option Site
  /-- the way from the initializer to this name -/
  pattern : List PatternStep

/-- Declared by `const`. -/
def Binding.isConst (b : Binding) : Bool := b.kind = .variable .constVar

/-- An occurrence of a name. -/
structure Reference where
  name : String
  site : Site
  /-- the scope the name occurs in -/
  scope : ScopeId
  access : Access
  /-- the binding the name means; none for a global -/
  resolved : Option BindingId

/-- The scopes, bindings and references of a source unit. -/
structure Graph where
  scopes : Array ScopeRecord
  bindings : Array Binding
  references : Array Reference
  /-- for each binding, the references that resolve to it -/
  uses : Array (List ReferenceId)
  /-- the scope a node opened, latest first -/
  scopeNodes : List (Nat × ScopeId)
  /-- the reference recorded for a node, latest first -/
  referenceNodes : List (Nat × ReferenceId)

namespace Graph

def empty : Graph := ⟨#[], #[], #[], #[], [], []⟩

/-- The binding of a name declared directly in a scope. -/
def own? (g : Graph) (s : ScopeId) (name : String) : Option BindingId :=
  (g.scopes[s]?).bind fun scope => scope.names.lookup name

/-- The parent of a scope.  Parents come before their children, so an index that does not
is no parent. -/
def parent? (g : Graph) (s : ScopeId) : Option ScopeId :=
  match g.scopes[s]? with
  | some scope => scope.parent.filter (· < s)
  | none => none

theorem lt_of_parent? {g : Graph} {s p : ScopeId} (h : g.parent? s = some p) : p < s := by
  unfold parent? at h
  split at h
  · have := (Option.filter_eq_some_iff.mp h).2
    simpa using this
  · contradiction

/-- A scope followed by the scopes it is nested in, innermost first. -/
def ancestors (g : Graph) (s : ScopeId) : List ScopeId :=
  match _h : g.parent? s with
  | some p => s :: ancestors g p
  | none => [s]
termination_by s
decreasing_by exact lt_of_parent? _h

/-- `inner` is `outer` or nested in it. -/
def isWithin (g : Graph) (inner outer : ScopeId) : Bool := (g.ancestors inner).contains outer

/-- The nearest function scope at or above a scope. -/
def enclosingFunction? (g : Graph) (s : ScopeId) : Option ScopeId :=
  (g.ancestors s).find? fun a => (g.scopes[a]?).any (·.kind == .function)

/-- The nearest scope on the parent chain that declares a name, with the binding. -/
def owner? (g : Graph) (s : ScopeId) (name : String) : Option (ScopeId × BindingId) :=
  (g.ancestors s).findSome? fun a => (g.own? a name).map fun b => (a, b)

/-- What a name means, seen from a scope. -/
def lookup? (g : Graph) (s : ScopeId) (name : String) : Option BindingId :=
  (g.owner? s name).map (·.2)

/-- The scope opened by exactly this node. -/
def scopeAt? (g : Graph) (site : Site) : Option ScopeId := g.scopeNodes.lookup site.id

/-- The reference recorded for exactly this node. -/
def referenceAt? (g : Graph) (site : Site) : Option Reference :=
  (g.referenceNodes.lookup site.id).bind fun r => g.references[r]?

/-- What the name at a node means. -/
def resolvedAt? (g : Graph) (site : Site) : Option BindingId :=
  (g.referenceAt? site).bind (·.resolved)

/-- The scope of the nearest tree, at or above the first, that opened one. -/
def enclosingFrom (g : Graph) (t : Tree) : List Tree → ScopeId
  | [] => (g.scopeNodes.lookup t.id).getD moduleScope
  | p :: above =>
    match g.scopeNodes.lookup t.id with
    | some s => s
    | none => enclosingFrom g p above

/-- The innermost scope a site lies in; a site that opened a scope lies in that scope. -/
def enclosingScope (g : Graph) (site : Site) : ScopeId := g.enclosingFrom site.tree site.above

/-- Every reference to a binding, in the order they were met. -/
def referencesTo (g : Graph) (b : BindingId) : List Reference :=
  (g.uses[b]?.getD []).filterMap fun r => g.references[r]?

/-- The scope a binding is declared in lies within `outer`. -/
def declaredWithin (g : Graph) (b : BindingId) (outer : ScopeId) : Bool :=
  (g.bindings[b]?).any fun binding => g.isWithin binding.scope outer

end Graph

end HookLint.Scope
