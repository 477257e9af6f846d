/-
Which functions are hooks.

A hook that takes a dependency list is known by its name: one of the configured
prefixes followed by a capital letter or a digit, the prefix alone, or a name the
configured pattern occurs in.  Some built-in hooks follow the naming but never take
a list.
-/
import HookLint.Hook.Pattern

namespace HookLint.Hook

/-- A hook whose result, or one element of it, keeps its identity across renders. -/
structure SafeHook where
  name : String
  /-- only this element of an array result is stable -/
  index : Option Nat
  deriving DecidableEq, Repr

/-- Built-in hooks that take no dependency list. -/
def withoutDependencies : List String :=
  ["useState", "useReducer", "useRef", "useContext", "useId", "useDebugValue",
   "useDeferredValue", "useTransition", "useSyncExternalStore", "useOptimistic",
   "useActionState", "useFormStatus"]

/-- How hooks are recognised. -/
structure Convention where
  prefixes : List String
  additional : Option Pattern
  safeHooks : List SafeHook

namespace Convention

/-- A convention; without prefixes the usual one holds. -/
def make (prefixes : List String) (additional : Option Pattern) (safeHooks : List SafeHook) :
    Convention :=
  { prefixes := if prefixes.isEmpty then ["use"] else prefixes, additional, safeHooks }

/-- The usual naming. -/
def default : Convention := make [] none []

/-- `name` is `start`, or goes on after it with a capital letter or a digit. -/
def follows (name start : String) : Bool :=
  name = start ||
    (Text.afterPrefix? name start).any fun rest =>
      rest.toList.head?.any fun c => c.isUpper || c.isDigit

/-- A function of this name takes a dependency list. -/
def isHook (c : Convention) (name : String) : Bool :=
  c.additional.any (·.occursIn name) ||
    (!withoutDependencies.contains name && c.prefixes.any (follows name))

/-- The first entry for a hook name in the list of safe hooks. -/
def safeHook? (c : Convention) (name : String) : Option SafeHook :=
  c.safeHooks.find? (·.name == name)

end Convention

/-- The position of the callback among a hook's arguments. -/
def callbackIndex (name : String) : Nat := if name = "useImperativeHandle" then 1 else 0

/-- What follows each occurrence of `word` in `cs`, where occurrences do not overlap. -/
def restsAfter (word : List Char) : Nat → List Char → List (List Char)
  | 0, _ => []
  | _ + 1, [] => []
  | fuel + 1, c :: cs =>
    if word.isPrefixOf (c :: cs) then
      let rest := (c :: cs).drop word.length
      rest :: restsAfter word fuel rest
    else restsAfter word fuel cs

/-- A hook that runs an effect: its name has the word `Effect` that no small letter
continues. -/
def isEffectHook (name : String) : Bool :=
  (restsAfter "Effect".toList name.toList.length name.toList).any fun rest =>
    rest.head?.all fun c => !c.isLower

end HookLint.Hook
