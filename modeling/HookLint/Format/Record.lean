/-
Reading typed values out of JSON.

A record is written as an object, whose unknown members are ignored and whose known
members appear once, or as an array of its fields in order, where trailing fields
may be absent.  Absent fields are the business of the reader: some have defaults.
-/
import HookLint.Format.Json

namespace HookLint.Json

/-- A field of a record: the names it may be written under. -/
abbrev FieldNames := List String

/-- The value of a field in an object: absent, or present once. -/
def member? (members : List (String × Json)) (names : FieldNames) : Option (Option Json) :=
  match members.filter fun (key, _) => names.contains key with
  | [] => some none
  | [(_, value)] => some (some value)
  | _ => none

/-- The values of the fields of a record.  When `exact`, an array with more items than
there are fields is no record. -/
def fields? (exact : Bool) (fields : List FieldNames) (j : Json) : Option (List (Option Json)) :=
  match j with
  | .object members => fields.mapM (member? members)
  | .array items =>
    if exact && fields.length < items.length then none
    else some ((List.range fields.length).map fun i => items[i]?)
  | _ => none

def string? : Json → Option String
  | .string s => some s
  | _ => none

def bool? : Json → Option Bool
  | .bool b => some b
  | _ => none

/-- A natural number that is less than `bound`. -/
def natBelow? (bound : Nat) : Json → Option Nat
  | .int (.ofNat n) => if n < bound then some n else none
  | _ => none

/-- A natural number of at most 64 bits. -/
def nat64? (j : Json) : Option Nat := natBelow? limit64 j

/-- A natural number of at most 32 bits. -/
def nat32? (j : Json) : Option Nat := natBelow? limit32 j

/-- A list whose items all read. -/
def list? {α : Type} (item : Json → Option α) : Json → Option (List α)
  | .array items => items.mapM item
  | _ => none

/-- A value that may be null. -/
def nullable? {α : Type} (item : Json → Option α) : Json → Option (Option α)
  | .null => some none
  | j => (item j).map some

/-- A field that must be present. -/
def required {α : Type} (item : Json → Option α) (field : Option Json) : Option α :=
  field.bind item

/-- A field with a default. -/
def defaulted {α : Type} (default : α) (item : Json → Option α) (field : Option Json) :
    Option α :=
  match field with
  | none => some default
  | some j => item j

end HookLint.Json
