/-
Checking the dependency array of a hook call.

A call without a dependency argument is not checked: to run after every render is a
choice.  Otherwise an asynchronous effect and assignments that a render loses are
reported in any case; then the argument is read.  What is no array literal, or has a
spread element, ends the check.  Literals and the first complex entry are remarked
on.  An array that is not as it should be is one finding with a suggestion; an array
that is may still hold values that every render builds afresh.
-/
import HookLint.Dependency.Message
import HookLint.Dependency.ArrayText
import HookLint.Diagnostic.Basic
import HookLint.Hook.Call

namespace HookLint.Dependency

open HookLint.Syntax HookLint.Scope

/-- The name of the check in reports and configuration. -/
def ruleName : String := "exhaustive-deps"

/-- What the check is about. -/
def ruleDescription : String :=
  "Verifies that hook dependency arrays list every reactive value the callback reads"

/-- What a check goes by. -/
structure Options where
  severity : Severity
  convention : Hook.Convention

/-- A hook call to be checked. -/
structure Subject where
  source : String
  graph : Graph
  options : Options
  call : Hook.Call

namespace Subject

/-- The function the hook is called from. -/
def renderScope (s : Subject) : Option ScopeId :=
  s.graph.enclosingFunction? (s.graph.enclosingScope s.call.site)

def classifier (s : Subject) : Classifier :=
  { graph := s.graph, source := s.source, convention := s.options.convention
    renderScope := s.renderScope }

def extraction (s : Subject) : Extraction := extract s.graph s.source s.call.callback

def requirements (s : Subject) : Requirements :=
  Requirements.ofReads s.extraction.reads s.classifier.classify

/-- How a list of entries differs from what the call requires. -/
def diff (s : Subject) (entries : List Entry) : Diff :=
  compare s.requirements entries s.classifier.classify

/-- A finding at a site. -/
def finding (s : Subject) (kind : DiagnosticKind) (message : String) (site : Site) : Diagnostic :=
  { rule := ruleName, kind, hookName := s.call.display, message
    missing := [], unnecessary := [], duplicate := []
    severity := s.options.severity, span := Span.ofSite s.source site, suggestion := none }

def asyncEffect (s : Subject) : List Diagnostic :=
  if Hook.isEffectHook s.call.name && s.call.callback.isAsync then
    [s.finding .asyncEffect Message.asyncEffect s.call.callback]
  else []

/-- The first write to each binding. -/
def firstWrites (writes : List Write) : List Write :=
  writes.foldl
    (fun kept w => if kept.any (·.binding == w.binding) then kept else kept ++ [w]) []

/-- Assignments to render-scope variables, one for each variable. -/
def staleAssignments (s : Subject) : List Diagnostic :=
  (firstWrites (s.extraction.writes.filter (s.classifier.isRenderScoped ·.binding))).map fun w =>
    s.finding (.staleAssignment w.name) (Message.staleAssignment w.name s.call.display) w.site

/-- The requirement that a string literal spells. -/
def spelledRequirement? (s : Subject) (entry : Entry) : Option String :=
  (entry.site.unwrap.stringContents? s.source).filter fun value =>
    s.requirements.reactive.any (·.text == value)

def literals (s : Subject) (entries : List Entry) : List Diagnostic :=
  (entries.filter (·.kind == .literal)).map fun e =>
    s.finding (.literalDependency e.text) (Message.literal e.text (s.spelledRequirement? e)) e.site

def firstComplex (s : Subject) (entries : List Entry) : List Diagnostic :=
  ((entries.find? (·.kind == .complex)).map fun e =>
    s.finding .complexDependency (Message.complex s.call.display) e.site).toList

/-- Where an entry stands in its array. -/
def rangeIn (array : Site) (e : Entry) : ByteRange :=
  { start := e.site.start - array.start, stop := e.site.stop - array.start }

/-- The edit that makes an array what it should be. -/
def suggestion? (s : Subject) (array : Site) (entries : List Entry) (d : Diff) :
    Option Suggestion :=
  let text := array.text s.source
  let declared := entries.map (rangeIn array)
  let added := d.missing.map (·.text)
  (ArrayText.render? text declared d.kept added).map fun rendered =>
    { description := ArrayText.describe (ArrayText.entries text declared d.kept added)
      replacement := { span := Span.ofSite s.source array, text := rendered } }

/-- The finding that an array is not what it should be. -/
def mismatch (s : Subject) (array : Site) (entries : List Entry) (d : Diff) (message : String) :
    Diagnostic :=
  { s.finding .dependencyMismatch message array with
    missing := d.missing.map (·.text)
    unnecessary := d.unnecessary.map (·.text)
    duplicate := d.duplicate.map (·.text)
    suggestion := s.suggestion? array entries d }

/-- The fresh value that a binding holds after every render. -/
def constructionOf? (b : Binding) : Option Construction :=
  match b.kind with
  | .functionDeclaration => some .function
  | .classDeclaration => some .classValue
  | .variable _ => if b.pattern.isEmpty then b.init.bind (·.construction?) else none
  | _ => none

/-- The binding is read apart from the callback and the array. -/
def isUsedOutside (s : Subject) (array : Site) (b : BindingId) : Bool :=
  (s.graph.referencesTo b).any fun r =>
    r.access.isRead && !s.call.callback.covers r.site && !array.covers r.site

/-- The finding that an entry is a fresh value after every render. -/
def construction? (s : Subject) (array : Site) (e : Entry) : Option Diagnostic := do
  let path ← e.path?
  let id ← e.root
  guard (!path.hasDot && s.classifier.isRenderScoped id)
  let b ← s.graph.bindings[id]?
  let kind ← constructionOf? b
  let line := (Span.ofSite s.source array).startLine
  return s.finding (.unstableConstruction b.name kind.describe)
    (Message.construction b.name kind s.call.display line (s.isUsedOutside array id)) b.declaration

/-- The finding on an array as a whole, or those on its values. -/
def judgement (s : Subject) (array : Site) (entries : List Entry) : List Diagnostic :=
  let d := s.diff entries
  if d.isClean then entries.filterMap (s.construction? array)
  else match Message.mismatch? s.call.display d with
    | some message => [s.mismatch array entries d message]
    | none => []

/-- The findings on a dependency argument. -/
def onDependencies (s : Subject) (deps : Site) : List Diagnostic :=
  match Declared.ofSite s.graph s.source deps with
  | .notArray => [s.finding .nonArrayDependencies (Message.nonArray s.call.display) deps]
  | .spread => [s.finding .spreadInDependencies (Message.spread s.call.display) deps]
  | .array array entries =>
    s.literals entries ++ s.firstComplex entries ++ s.judgement array entries

/-- The findings on a hook call. -/
def check (s : Subject) : List Diagnostic :=
  match s.call.dependencies with
  | none => []
  | some deps => s.asyncEffect ++ s.staleAssignments ++ s.onDependencies deps

end Subject

/-- The findings on the hook calls of a source, in source order of the calls. -/
def analyze (options : Options) (source : String) (graph : Graph) (root : Tree) :
    List Diagnostic :=
  (Hook.calls source options.convention root).flatMap fun call =>
    Subject.check { source, graph, options, call }

end HookLint.Dependency
