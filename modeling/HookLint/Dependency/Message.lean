/-
What diagnostics say.
-/
import HookLint.Dependency.Diff

namespace HookLint.Dependency.Message

/-- A name in quotes. -/
def quoted (name : String) : String := "'" ++ name ++ "'"

/-- A list in English: `a`, `a and b`, `a, b, and c`. -/
def enumerated : List String → String
  | [] => ""
  | [a] => a
  | [a, b] => a ++ " and " ++ b
  | names =>
    match names.reverse with
    | last :: before => Text.join ", " before.reverse ++ ", and " ++ last
    | [] => ""

/-- The paths in quotes and in alphabetical order. -/
def enumeratedPaths (paths : List Path) : String :=
  enumerated (((paths.map (·.text)).mergeSort fun a b => decide (a ≤ b)).map quoted)

/-- What is wrong with a dependency array, in the order in which it is reported. -/
inductive Fault where
  | missing
  | unnecessary
  | duplicate
  deriving DecidableEq, Repr

namespace Fault

def adjective : Fault → String
  | missing => "missing"
  | unnecessary => "unnecessary"
  | duplicate => "duplicate"

/-- What to do about it. -/
def remedy : Fault → String
  | missing => "include"
  | unnecessary => "exclude"
  | duplicate => "omit"

def article : Fault → String
  | unnecessary => "an "
  | _ => "a "

end Fault

/-- The fault a diff is reported for, with its paths. -/
def faultOf? (d : Diff) : Option (Fault × List Path) :=
  if !d.missing.isEmpty then some (.missing, d.missing)
  else if !d.unnecessary.isEmpty then some (.unnecessary, d.unnecessary)
  else if !d.duplicate.isEmpty then some (.duplicate, d.duplicate)
  else none

/-- Why a value cannot be a dependency. -/
def invalidValue (sort : String) (p : Path) : String :=
  let name := p.text
  s!" {sort} values like '{name}' aren't valid dependencies because mutating them doesn't re-render the component."

/-- The remark on the first path that cannot be a dependency at all. -/
def remark (d : Diff) : String :=
  match d.mutableSlot, d.outerScope with
  | some p, _ => invalidValue "Mutable" p
  | none, some p => invalidValue "Outer scope" p
  | none, none => ""

/-- The message for a dependency array that is not as it should be; none when it is. -/
def mismatch? (hook : String) (d : Diff) : Option String :=
  (faultOf? d).map fun (fault, paths) =>
    let single := paths.length = 1
    let article := if single then fault.article else ""
    let adjective := fault.adjective
    let noun := if single then "dependency" else "dependencies"
    let names := enumeratedPaths paths
    let remedy := fault.remedy
    let pronoun := if single then "it" else "them"
    s!"React Hook {hook} has {article}{adjective} {noun}: {names}. Either {remedy} {pronoun} or remove the dependency array." ++
      remark d

def staleAssignment (name hook : String) : String :=
  s!"Assignments to the '{name}' variable from inside React Hook {hook} will be lost after each render. " ++
  "To preserve the value over time, store it in a useRef Hook and keep the mutable value in the '.current' property. " ++
  s!"Otherwise, you can move this variable directly inside {hook}."

def nonArray (hook : String) : String :=
  s!"React Hook {hook} was passed a dependency list that is not an array literal. " ++
  "This means we can't statically verify whether you've passed the correct dependencies."

def spread (hook : String) : String :=
  s!"React Hook {hook} has a spread element in its dependency array. " ++
  "This means we can't statically verify whether you've passed the correct dependencies."

def complex (hook : String) : String :=
  s!"React Hook {hook} has a complex expression in the dependency array. " ++
  "Extract it to a separate variable so it can be statically checked."

/-- The message for a literal entry; `named` is the dependency that a string spells. -/
def literal (raw : String) (named : Option String) : String :=
  s!"The {raw} literal is not a valid dependency because it never changes. " ++
  match named with
  | some value => s!"Did you mean to include {value} in the array instead?"
  | none => "You can safely remove it."

def asyncEffect : String :=
  "Effect callbacks are synchronous to prevent race conditions. Put the async function inside:\n\n" ++
  "useEffect(() => \x7b\n" ++
  "  async function fetchData() \x7b\n" ++
  "    // You can await here\n" ++
  "    const response = await MyAPI.getData(someId);\n" ++
  "    // ...\n" ++
  "  \x7d\n" ++
  "  fetchData();\n" ++
  "\x7d, [someId]); // Or [] if effect doesn't need props or state\n\n" ++
  "Learn more about data fetching with Hooks: https://react.dev/link/hooks-data-fetching"

/-- The message for a declared value that is built afresh on every render. -/
def construction (name : String) (kind : Syntax.Construction) (hook : String) (line : Nat)
    (usedOutside : Bool) : String :=
  let what := kind.describe
  let causes := match kind with
    | .conditional | .logical => "could make"
    | _ => "makes"
  let (part, wrapper) := match kind with
    | .function => ("definition", "useCallback")
    | _ => ("initialization", "useMemo")
  let advice :=
    if usedOutside then s!"To fix this, wrap the {part} of '{name}' in its own {wrapper}() Hook."
    else s!"Move it inside the {hook} callback. Alternatively, wrap the {part} of '{name}' in its own {wrapper}() Hook."
  s!"The '{name}' {what} {causes} the dependencies of {hook} Hook (at line {line}) change on every render. " ++
    advice

end HookLint.Dependency.Message
