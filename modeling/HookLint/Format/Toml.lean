/-
TOML documents.

A document is built line by line.  A header opens a table or adds an element to an
array of tables; an assignment puts a value into the open table, by way of further
tables when its key is dotted.  A table is opened once and a key assigned once.
Tables that were only passed through may still be opened, unless a dotted key made
them; those in turn take further dotted keys.
-/
import HookLint.Format.Json

namespace HookLint.Toml

/-- What stands under a key. -/
inductive Item where
  | value (v : Json)
  /-- a table; `implicit` when no header opened it, `dotted` when a dotted key made it -/
  | table (implicit dotted : Bool) (members : List (String × Item))
  | tables (elements : List (List (String × Item)))
  deriving Inhabited

/-- The content of a table. -/
abbrev Members := List (String × Item)

namespace Members

/-- Puts an item in place of the one under a key. -/
def set (key : String) (item : Item) : Members → Members
  | [] => [(key, item)]
  | (k, old) :: rest => if k = key then (k, item) :: rest else (k, old) :: set key item rest

/-- Edits the table at a path, making the tables on the way that are not there. -/
def within (edit : Members → Option Members) : List String → Members → Option Members
  | [], ms => edit ms
  | key :: path, ms =>
    match ms.lookup key with
    | none => (within edit path []).map fun sub => ms ++ [(key, .table true false sub)]
    | some (.table implicit dotted sub) =>
      (within edit path sub).map fun sub => set key (.table implicit dotted sub) ms
    | some (.tables elements) => do
      let sub ← within edit path (← elements.getLast?)
      return set key (.tables (elements.dropLast ++ [sub])) ms
    | some (.value _) => none

/-- Opens a table of this one. -/
def openTable (key : String) (ms : Members) : Option Members :=
  match ms.lookup key with
  | none => some (ms ++ [(key, .table false false [])])
  | some (.table true false sub) => some (set key (.table false false sub) ms)
  | _ => none

/-- Adds an element to an array of tables of this one. -/
def addElement (key : String) (ms : Members) : Option Members :=
  match ms.lookup key with
  | none => some (ms ++ [(key, .tables [[]])])
  | some (.tables elements) => some (set key (.tables (elements ++ [[]])) ms)
  | _ => none

/-- Assigns a value by way of the tables on a path.  `takes` says whether this table takes
the value when it is the last one. -/
def assign (key : String) (v : Json) (takes : Bool) : List String → Members → Option Members
  | [], ms => if takes && (ms.lookup key).isNone then some (ms ++ [(key, .value v)]) else none
  | step :: path, ms =>
    match ms.lookup step with
    | none => (assign key v true path []).map fun sub => ms ++ [(step, .table true true sub)]
    | some (.table true dotted sub) =>
      (assign key v dotted path sub).map fun sub => set step (.table true dotted sub) ms
    | some (.tables elements) => do
      let sub ← assign key v false path (← elements.getLast?)
      return set step (.tables (elements.dropLast ++ [sub])) ms
    | _ => none

end Members

mutual

/-- An item as structured data. -/
def Item.toJson : Item → Json
  | .value v => v
  | .table _ _ ms => .object (membersJson ms)
  | .tables elements => .array (elementsJson elements)

def membersJson : Members → List (String × Json)
  | [] => []
  | (key, item) :: rest => (key, item.toJson) :: membersJson rest

def elementsJson : List Members → List Json
  | [] => []
  | ms :: rest => .object (membersJson ms) :: elementsJson rest

end

/-- A document that is being read. -/
structure Document where
  root : Members := []
  /-- the path of the open table -/
  current : List String := []

namespace Document

/-- Takes account of a table header. -/
def header (path : List String) (key : String) (d : Document) : Option Document :=
  (Members.within (Members.openTable key) path d.root).map fun root =>
    { root, current := path ++ [key] }

/-- Takes account of the header of an element of an array of tables. -/
def elementHeader (path : List String) (key : String) (d : Document) : Option Document :=
  (Members.within (Members.addElement key) path d.root).map fun root =>
    { root, current := path ++ [key] }

/-- Takes account of an assignment. -/
def assign (path : List String) (key : String) (v : Json) (d : Document) : Option Document :=
  (Members.within (Members.assign key v true path) d.current d.root).map fun root =>
    { d with root }

/-- The whole document as structured data. -/
def toJson (d : Document) : Json := .object (membersJson d.root)

end Document

end HookLint.Toml
