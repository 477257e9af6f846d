/-
How a value behaves from render to render.

A binding declared outside the function the hook is called from is external: a
render does not change it.  Of the others, some keep their identity: the updater of
a state hook, a ref container, a memoized value without dependencies, a constant
literal, and whatever a configured safe hook returns.  An alias of a safe hook's
result, or of a member of it, is as stable as the result.  Everything else is
reactive.
-/
import HookLint.Hook.Convention
import HookLint.Scope.Build

namespace HookLint.Dependency

open HookLint.Syntax HookLint.Scope HookLint.Hook

/-- Why a render-scope value keeps its identity. -/
inductive StableReason where
  | stateSetter
  | refContainer
  | safeHook
  | memoized
  | constantLiteral
  deriving DecidableEq, Repr

inductive Stability where
  /-- declared outside the render function -/
  | external
  | stable (reason : StableReason)
  /-- changes between renders, and has to be declared -/
  | reactive
  deriving DecidableEq, Repr

def Stability.isStable : Stability → Bool
  | stable _ => true
  | _ => false

/-- Hooks whose second element is an updater that never changes. -/
def stateHooks : List String := ["useState", "useReducer", "useTransition", "useActionState"]

/-- How many aliases are followed. -/
def aliasLimit : Nat := 16

/-- The call's dependency argument is an empty array literal. -/
def hasEmptyDependencies (call : Site) : Bool :=
  match call.field? .arguments with
  | none => false
  | some arguments =>
    (arguments.namedChildren[1]?).any fun deps =>
      deps.unwrap.kind == .array && deps.unwrap.namedChildren.isEmpty

/-- The identifier a chain of member accesses starts at, seen through casts at every
level. -/
def chainRoot? (s : Site) : Option Site :=
  match s.unwrap.kind with
  | .identifier => some s.unwrap
  | .member | .subscript =>
    match _h : s.unwrap.field? .object with
    | some object => chainRoot? object
    | none => none
  | _ => none
termination_by sizeOf s.tree
decreasing_by exact Nat.lt_of_lt_of_le (Site.sizeOf_lt_of_field? _h) (Site.sizeOf_unwrap_le s)

/-- What bindings are classified by. -/
structure Classifier where
  graph : Graph
  source : String
  convention : Convention
  /-- the function the hook is called from; none at module level -/
  renderScope : Option ScopeId

namespace Classifier

/-- The binding lives in the render function or in a scope nested in it. -/
def isRenderScoped (c : Classifier) (b : BindingId) : Bool :=
  c.renderScope.any (c.graph.declaredWithin b)

/-- The safe hook named makes the part of its result reached by the pattern stable. -/
def safeResult (c : Classifier) (name : String) (pattern : List PatternStep) : Bool :=
  (c.convention.safeHook? name).any fun hook =>
    hook.index.all fun index => pattern.head? = some (.index index)

/-- How the part of a call's result reached by the pattern behaves. -/
def resultStability (c : Classifier) (call : Site) (pattern : List PatternStep) : Stability :=
  match (call.field? .function).bind (·.calleeName? c.source) with
  | none => .reactive
  | some name =>
    if c.safeResult name pattern then .stable .safeHook
    else if name = "useRef" ∧ pattern = [] then .stable .refContainer
    else if stateHooks.contains name ∧ pattern = [.index 1] then .stable .stateSetter
    else if (name = "useMemo" ∨ name = "useCallback") ∧ pattern = [] ∧
        hasEmptyDependencies call = true then .stable .memoized
    else .reactive

/-- The binding an initializer is an alias of, or of a member of. -/
def aliasOf? (c : Classifier) (init : Site) : Option BindingId :=
  (chainRoot? init).bind c.graph.resolvedAt?

/-- How a binding behaves, following at most `limit` aliases. -/
def classifyWithin (c : Classifier) (limit : Nat) (b : BindingId) : Stability :=
  if !c.isRenderScoped b then .external
  else match c.graph.bindings[b]? with
    | none => .reactive
    | some binding =>
      match binding.kind, binding.init.map (·.unwrap) with
      | .variable _, some init =>
        if init.construction?.isSome then .reactive
        else if binding.pattern.isEmpty && binding.isConst && init.isPrimitive then
          .stable .constantLiteral
        else if init.kind = .call then c.resultStability init binding.pattern
        else match limit with
          | 0 => .reactive
          | limit + 1 =>
            match c.aliasOf? init with
            | some target =>
              if c.classifyWithin limit target = .stable .safeHook then .stable .safeHook
              else .reactive
            | none => .reactive
      | _, _ => .reactive

/-- How a binding behaves. -/
def classify (c : Classifier) (b : BindingId) : Stability := c.classifyWithin aliasLimit b

end Classifier

end HookLint.Dependency
