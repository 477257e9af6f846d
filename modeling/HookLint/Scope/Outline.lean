/-
What a source unit says about names, in the order it says it.

Reading a tree for names is described in two layers.  `expand` gives, for one site
in one role, what it contributes: events of its own, and sites below it to be read
in some role.  It does not recurse.  `events` follows it down the tree.

A site is read as a value (`f(x)` reads `f` and `x`), as a pattern that declares
names (the left of `const [a] = …`), as the target of an assignment, or as the name
of an element.  Regions are entered and left in pairs.
-/
import HookLint.Scope.Graph
import HookLint.Syntax.Expression

namespace HookLint.Scope

open HookLint.Syntax

/-- Which scope receives a declaration. -/
inductive Target where
  /-- the scope being read -/
  | current
  /-- the nearest function or module scope -/
  | hoisted
  /-- the module scope -/
  | module
  deriving DecidableEq, Repr

/-- A name being declared. -/
structure Declaration where
  name : String
  kind : BindingKind
  target : Target
  ident : Site
  declaration : Site
  init : Option Site
  pattern : List PatternStep

/-- What reading a tree for names meets. -/
inductive Event where
  | enter (kind : ScopeKind) (site : Site)
  | leave
  | declare (d : Declaration)
  | refer (name : String) (site : Site) (access : Access)

/-- How the names of a pattern are declared. -/
structure Binder where
  kind : BindingKind
  target : Target
  declaration : Site
  init : Option Site := none

/-- What a site is read as. -/
inductive Role where
  | value
  /-- a pattern that declares names, reached by the steps -/
  | pattern (binder : Binder) (steps : List PatternStep)
  | target (access : Access)
  | elementName
  | elementObject

/-- A contribution of one site: an event, or a site below it to read. -/
inductive Step where
  | emit (e : Event)
  | visit (role : Role) (site : Site)

/-- The site, if any, that a step leads to is smaller than `s`. -/
def Step.Within (s : Site) : Step → Prop
  | .emit _ => True
  | .visit _ c => sizeOf c.tree < sizeOf s.tree

section Expand

variable (source : String)

/-! ### Small contributions -/

/-- Declares the name an identifier spells. -/
def declareSteps (binder : Binder) (steps : List PatternStep) (ident : Site) : List Step :=
  [.emit (.declare
    { name := ident.text source, kind := binder.kind, target := binder.target, ident
      declaration := binder.declaration, init := binder.init, pattern := steps })]

/-- Records an occurrence of the name an identifier spells. -/
def referSteps (access : Access) (ident : Site) : List Step :=
  [.emit (.refer (ident.text source) ident access)]

/-- Reads the site that fills a field. -/
def fieldSteps (role : Role) (f : Field) (s : Site) : List Step :=
  match s.field? f with
  | some c => [.visit role c]
  | none => []

/-- Reads every named child as a value. -/
def childSteps (s : Site) : List Step := s.namedChildren.map (.visit .value)

/-- Reads every named child but the one that names the node. -/
def memberSteps (s : Site) : List Step :=
  (s.namedChildren.filter fun c => (s.field? .name).all (·.id != c.id)).map (.visit .value)

/-- Puts contributions into a region of their own. -/
def region (kind : ScopeKind) (s : Site) (steps : List Step) : List Step :=
  .emit (.enter kind s) :: (steps ++ [.emit .leave])

/-- Declares the name of a declaration in the scope it stands in. -/
def nameSteps (kind : BindingKind) (s : Site) : List Step :=
  match s.field? .name with
  | some name => declareSteps source { kind, target := .current, declaration := s } [] name
  | none => []

/-- Reads a key that is computed; a plain key is no value. -/
def computedKeySteps (f : Field) (s : Site) : List Step :=
  match s.field? f with
  | some key => if key.kind = .computedName then [.visit .value key] else []
  | none => []

/-! ### Functions, declarations, imports -/

/-- The region of a function: its own name, its parameters, its body.  The function's
scope is also the scope of its body. -/
def functionSteps (s : Site) : List Step :=
  let binder : Binder := { kind := .parameter, target := .current, declaration := s }
  region .function s <|
    (if s.kind = .functionExpression then nameSteps source .functionName s else []) ++
    fieldSteps (.pattern binder []) .parameter s ++
    (match s.field? .parameters with
      | some ps => ps.namedChildren.map (.visit (.pattern binder []))
      | none => []) ++
    (match s.field? .body with
      | some body =>
        if body.kind = .statementBlock then childSteps body else [.visit .value body]
      | none => [])

/-- The kind of variable a `const`, `let` or `var` declaration introduces. -/
def declaredKind (s : Site) : VariableKind :=
  if s.kind = .variableDeclaration then .varVar
  else if (s.field? .kind).any (·.text source == "const") then .constVar
  else .letVar

/-- Where a variable of a kind is declared. -/
def VariableKind.home : VariableKind → Target
  | varVar => .hoisted
  | _ => .current

/-- The declarators of a variable declaration, each with its initializer. -/
def declarationSteps (s : Site) : List Step :=
  let kind := declaredKind source s
  (s.namedChildren.filter (·.kind == .declarator)).flatMap fun d =>
    fieldSteps (.pattern
      { kind := .variable kind, target := kind.home, declaration := d, init := d.field? .value }
      []) .name d ++
    fieldSteps .value .value d

/-- The kind of variable the head of a `for … in` or `for … of` loop introduces. -/
def loopVariable (word : String) : VariableKind :=
  match word with
  | "const" => .constVar
  | "let" => .letVar
  | _ => .varVar

/-- The region of a `for … in` or `for … of` loop. -/
def forInSteps (s : Site) : List Step :=
  region .loop s <|
    (match s.field? .kind with
      | some word =>
        let kind := loopVariable (word.text source)
        fieldSteps (.pattern
          { kind := .variable kind, target := kind.home, declaration := s } []) .left s
      | none => fieldSteps (.target .write) .left s) ++
    fieldSteps .value .right s ++
    fieldSteps .value .body s

/-- The local name of an import specifier. -/
def importedName? (spec : Site) : Option Site :=
  match spec.field? .alias with
  | some name => some name
  | none => spec.field? .name

/-- The identifiers one part of an import clause binds. -/
def importedBy (part : Site) : List Site :=
  match part.kind with
  | .identifier => [part]
  | .namespaceImport => (part.namedChildren.find? (·.kind == .identifier)).toList
  | .namedImports => part.namedChildren.filterMap importedName?
  | _ => []

/-- The identifiers an import statement binds. -/
def importedIdents (s : Site) : List Site :=
  s.namedChildren.flatMap fun child =>
    match child.kind with
    | .importClause => child.namedChildren.flatMap importedBy
    | .importRequire => child.firstNamed?.toList
    | _ => []

/-- The names an import statement binds, always in the module scope. -/
def importSteps (s : Site) : List Step :=
  (importedIdents s).flatMap
    (declareSteps source { kind := .imported, target := .module, declaration := s } [])

/-! ### The roles -/

/-- What a site contributes as a value. -/
def expandValue (s : Site) : List Step :=
  match s.kind with
  | .typeOnly | .comment => []
  | .identifier | .shorthandProperty => referSteps source .read s
  | .functionDeclaration => nameSteps source .functionDeclaration s ++ functionSteps source s
  | .functionExpression | .arrowFunction => functionSteps source s
  | .method => computedKeySteps .name s ++ functionSteps source s
  | .classDeclaration => nameSteps source .classDeclaration s ++ memberSteps s
  | .classExpression =>
    if (s.field? .name).isSome then
      region .classBody s (nameSteps source .classDeclaration s ++ memberSteps s)
    else memberSteps s
  | .lexicalDeclaration | .variableDeclaration => declarationSteps source s
  | .importStatement => importSteps source s
  | .exportStatement => if (s.field? .source).isSome then [] else childSteps s
  | .exportSpecifier => fieldSteps .value .name s
  | .statementBlock | .switchBody => region .block s (childSteps s)
  | .forLoop => region .loop s (childSteps s)
  | .forIn => forInSteps source s
  | .catchClause =>
    region .catchClause s <|
      fieldSteps (.pattern { kind := .catchParameter, target := .current, declaration := s } [])
        .parameter s ++
      fieldSteps .value .body s
  | .assignment => fieldSteps (.target .write) .left s ++ fieldSteps .value .right s
  | .augmentedAssignment => fieldSteps (.target .readWrite) .left s ++ fieldSteps .value .right s
  | .update => fieldSteps (.target .readWrite) .argument s
  | .assertion | .typeAssertion => s.wrapped?.toList.map (.visit .value)
  | .parenthesized =>
    match s.castOperand? with
    | some operand => [.visit .value operand]
    | none => childSteps s
  | .elementOpening | .elementSelfClosing => fieldSteps .elementName .name s ++ memberSteps s
  | .elementClosing | .elementNamespaceName => []
  | .enumDeclaration => nameSteps source .enumeration s
  | .moduleDeclaration => fieldSteps .value .body s
  | _ => childSteps s

/-- The key a pair pattern reads. -/
def patternKey (s : Site) : String :=
  match s.field? .key with
  | some key =>
    if key.kind = .computedName then "[computed]"
    else (key.stringContents? source).getD (key.text source)
  | none => ""

/-- What a property of an object pattern contributes. -/
def expandProperty (binder : Binder) (steps : List PatternStep) (s : Site) : List Step :=
  match s.kind with
  | .shorthandPattern => declareSteps source binder (steps ++ [.key (s.text source)]) s
  | .pairPattern =>
    computedKeySteps .key s ++
    fieldSteps (.pattern binder (steps ++ [.key (patternKey source s)])) .value s
  | .objectAssignmentPattern =>
    (match s.field? .left with
      | some left =>
        if left.kind = .shorthandPattern then
          declareSteps source binder (steps ++ [.key (left.text source)]) left
        else [.visit (.pattern binder steps) left]
      | none => []) ++
    fieldSteps .value .right s
  | .restPattern => [.visit (.pattern binder steps) s]
  | _ => []

/-- The elements of an array pattern with their positions: a position is the number of
commas before it, so holes count. -/
def elements (position : Nat) : List Site → List (Nat × Site)
  | [] => []
  | c :: cs =>
    if c.kind = .comma then elements (position + 1) cs
    else if c.isProper then (position, c) :: elements position cs
    else elements position cs

/-- What a site contributes as a pattern. -/
def expandPattern (binder : Binder) (steps : List PatternStep) (s : Site) : List Step :=
  match s.kind with
  | .identifier | .shorthandPattern => declareSteps source binder steps s
  | .objectPattern => s.namedChildren.flatMap (expandProperty source binder steps)
  | .arrayPattern =>
    (elements 0 s.children).map fun (position, c) =>
      .visit (.pattern binder (steps ++ [.index position])) c
  | .assignmentPattern =>
    fieldSteps (.pattern binder steps) .left s ++ fieldSteps .value .right s
  | .restPattern => s.firstNamed?.toList.map (.visit (.pattern binder (steps ++ [.rest])))
  | .parameter => fieldSteps (.pattern binder steps) .pattern s ++ fieldSteps .value .value s
  | _ => []

/-- What a property of an object pattern contributes when it is assigned to. -/
def expandTargetProperty (s : Site) : List Step :=
  match s.kind with
  | .shorthandPattern => referSteps source .write s
  | .pairPattern => computedKeySteps .key s ++ fieldSteps (.target .write) .value s
  | .objectAssignmentPattern =>
    (match s.field? .left with
      | some left =>
        if left.kind = .shorthandPattern then referSteps source .write left
        else [.visit (.target .write) left]
      | none => []) ++
    fieldSteps .value .right s
  | .restPattern => [.visit (.target .write) s]
  | _ => []

/-- What a site contributes as the target of an assignment.  A member target reads its
object. -/
def expandTarget (access : Access) (s : Site) : List Step :=
  match s.kind with
  | .identifier => referSteps source access s
  | .parenthesized | .assertion | .typeAssertion => s.wrapped?.toList.map (.visit (.target access))
  | .objectPattern => s.namedChildren.flatMap (expandTargetProperty source)
  | .arrayPattern => s.namedChildren.map (.visit (.target .write))
  | .assignmentPattern => fieldSteps (.target .write) .left s ++ fieldSteps .value .right s
  | .restPattern => s.firstNamed?.toList.map (.visit (.target .write))
  | _ => expandValue source s

/-- What the name of an element contributes.  A name that starts with a capital letter is a
component; other plain names are built in. -/
def expandElementName (s : Site) : List Step :=
  match s.kind with
  | .identifier =>
    if (s.text source).toList.head?.any Char.isUpper then referSteps source .read s else []
  | .member | .nestedIdentifier => s.firstNamed?.toList.map (.visit .elementObject)
  | _ => []

/-- What the object part of a dotted element name contributes. -/
def expandElementObject (s : Site) : List Step :=
  match s.kind with
  | .identifier => referSteps source .read s
  | .member | .nestedIdentifier => s.firstNamed?.toList.map (.visit .elementObject)
  | _ => []

/-- What a site contributes in a role. -/
def expand (role : Role) (s : Site) : List Step :=
  match role with
  | .value => expandValue source s
  | .pattern binder steps => expandPattern source binder steps s
  | .target access => expandTarget source access s
  | .elementName => expandElementName source s
  | .elementObject => expandElementObject source s

end Expand

end HookLint.Scope
