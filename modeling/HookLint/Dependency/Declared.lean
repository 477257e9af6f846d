/-
What a dependency array declares.

An entry that is a name or a member path declares that path; optional links count as
plain ones.  A literal never is a dependency, and any other expression is too
complex to check.
-/
import HookLint.Dependency.Path
import HookLint.Scope.Build

namespace HookLint.Dependency

open HookLint.Syntax HookLint.Scope

/-- What an entry of a dependency array is. -/
inductive EntryKind where
  | path (p : Path)
  | literal
  | complex
  deriving DecidableEq, Repr

/-- An entry of a dependency array. -/
structure Entry where
  site : Site
  /-- the entry as written -/
  text : String
  kind : EntryKind
  /-- what the first name of the path means -/
  root : Option BindingId

def Entry.path? (e : Entry) : Option Path :=
  match e.kind with
  | .path p => some p
  | _ => none

/-- The path an expression spells and the identifier it starts at. -/
def spelledPath? (source : String) (s : Site) : Option (Path × Site) :=
  match s.unwrap.kind with
  | .identifier => some (⟨s.unwrap.text source⟩, s.unwrap)
  | .member =>
    match _h : s.unwrap.field? .object with
    | some object => do
      let (path, root) ← spelledPath? source object
      let property ← s.unwrap.field? .property
      return (path.push (property.text source), root)
    | none => none
  | .subscript =>
    match _h : s.unwrap.field? .object with
    | some object => do
      let (path, root) ← spelledPath? source object
      let key ← s.unwrap.subscriptKey? source
      return (path.push key, root)
    | none => none
  | _ => none
termination_by sizeOf s.tree
decreasing_by
  all_goals exact Nat.lt_of_lt_of_le (Site.sizeOf_lt_of_field? _h) (Site.sizeOf_unwrap_le s)

/-- Reads one entry. -/
def Entry.ofSite (g : Graph) (source : String) (site : Site) : Entry :=
  let text := site.text source
  if site.isPrimitive then { site, text, kind := .literal, root := none }
  else match spelledPath? source site with
    | some (path, ident) => { site, text, kind := .path path, root := g.resolvedAt? ident }
    | none => { site, text, kind := .complex, root := none }

/-- The argument after a hook's callback. -/
inductive Declared where
  /-- no array literal, even with casts removed -/
  | notArray
  /-- an array literal with a spread element -/
  | spread
  | array (literal : Site) (entries : List Entry)

/-- Reads a dependency argument. -/
def Declared.ofSite (g : Graph) (source : String) (deps : Site) : Declared :=
  let array := deps.unwrap
  if array.kind ≠ .array then .notArray
  else if array.namedChildren.any (·.kind == .spread) then .spread
  else .array array (array.namedChildren.map (Entry.ofSite g source))

end HookLint.Dependency
