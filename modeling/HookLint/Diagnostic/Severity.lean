/-
How serious a finding is.
-/
import HookLint.Text.Case

namespace HookLint

/-- Severities, from the mildest. -/
inductive Severity where
  | info
  | low
  | medium
  | high
  | critical
  deriving DecidableEq, Repr, Inhabited

namespace Severity

def name : Severity → String
  | info => "info"
  | low => "low"
  | medium => "medium"
  | high => "high"
  | critical => "critical"

/-- The place in the ascending order. -/
def rank : Severity → Nat
  | info => 0
  | low => 1
  | medium => 2
  | high => 3
  | critical => 4

/-- All severities, worst first. -/
def worstFirst : List Severity := [critical, high, medium, low, info]

/-- The worse of two severities. -/
def max (a b : Severity) : Severity := if a.rank ≤ b.rank then b else a

/-- The severity whose name is exactly `s`. -/
def ofName? (s : String) : Option Severity :=
  match s with
  | "info" => some info
  | "low" => some low
  | "medium" => some medium
  | "high" => some high
  | "critical" => some critical
  | _ => none

/-- Reads a severity in any letter case; warnings and errors have their usual meaning. -/
def parse? (s : String) : Option Severity :=
  match Text.lower s with
  | "warn" => some medium
  | "warning" => some medium
  | "error" => some high
  | word => ofName? word

/-- What is said of a text that is no severity. -/
def unknownMessage (s : String) : String :=
  let word := Text.lower s
  s!"unknown severity '{word}' (expected info, low, medium, high, critical)"

end Severity

end HookLint
