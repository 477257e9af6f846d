/-
Reading a configuration from structured data.

JSON and TOML describe the same records.  They differ in one respect: a record
written as an array may have surplus items in TOML but not in JSON, which is what
`exact` says.
-/
import HookLint.Config.Basic
import HookLint.Format.Record

namespace HookLint.Config

open HookLint.Hook Json

/-- A safe hook is written `"name"`, `["name"]`, `["name", index]` or as an object. -/
def safeHook? : Json → Option SafeHook
  | .array [.string name, index] => index.nat64?.map fun i => ⟨name, some i⟩
  | .array [.string name] => some ⟨name, none⟩
  | .string name => some ⟨name, none⟩
  | .object members => do
    let name ← required string? (← member? members ["name"])
    let index ← defaulted none (nullable? nat64?)
      (← member? members ["stable_argument_index", "stableArgumentIndex"])
    return ⟨name, index⟩
  | _ => none

def RuleSettings.ofJson? (exact : Bool) (j : Json) : Option RuleSettings := do
  match ← fields? exact
    [["enabled"], ["severity"], ["safe_hooks", "safeHooks"],
     ["additional_hooks", "additionalHooks"], ["hook_prefixes", "hookPrefixes"]] j with
  | [enabled, severity, safeHooks, additionalHooks, hookPrefixes] =>
    return {
      enabled := ← defaulted true bool? enabled
      severity := ← defaulted none (nullable? string?) severity
      safeHooks := ← defaulted [] (list? safeHook?) safeHooks
      additionalHooks := ← defaulted none (nullable? string?) additionalHooks
      hookPrefixes := ← defaulted [] (list? string?) hookPrefixes }
  | _ => none

/-- The settings of the check among those of all checks. -/
def ruleOfJson? (exact : Bool) (j : Json) : Option RuleSettings := do
  match ← fields? exact [["exhaustive-deps", "exhaustive_deps"]] j with
  | [rule] => defaulted {} (RuleSettings.ofJson? exact) rule
  | _ => none

def Exclusion.ofJson? (exact : Bool) (j : Json) : Option Exclusion := do
  match ← fields? exact [["paths"], ["skip_defaults"]] j with
  | [paths, skipDefaults] =>
    return {
      paths := ← defaulted [] (list? string?) paths
      skipDefaults := ← defaulted false bool? skipDefaults }
  | _ => none

def Defaults.ofJson? (exact : Bool) (j : Json) : Option Defaults := do
  match ← fields? exact [["format"], ["workers"], ["fail_on"]] j with
  | [format, workers, failOn] =>
    return {
      format := ← defaulted none (nullable? string?) format
      workers := ← defaulted none (nullable? nat64?) workers
      failOn := ← defaulted none (nullable? string?) failOn }
  | _ => none

/-- A whole configuration. -/
def ofJson? (exact : Bool) (j : Json) : Option Config := do
  match ← fields? exact [["rules"], ["exclude"], ["defaults"]] j with
  | [rules, exclude, defaults] =>
    return {
      rule := ← defaulted {} (ruleOfJson? exact) rules
      exclude := ← defaulted {} (Exclusion.ofJson? exact) exclude
      defaults := ← defaulted {} (Defaults.ofJson? exact) defaults }
  | _ => none

end HookLint.Config
