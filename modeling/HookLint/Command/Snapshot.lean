/-
A directory and its syntax trees, as JSON.

The directory has a name and is an object of paths and texts; `null` stands for a file
that is no text.  The trees are an object of paths and lists: the tree of the file's text, then
of the text after one fixing pass, and so on.  A tree is one flat array with four items
for every node, in pre-order: its label, its first byte, the byte after its last, and
the number of its children.
-/
import HookLint.Command.Session
import HookLint.Format.Record

namespace HookLint.Command

open HookLint.Files HookLint.Syntax

/-- A directory, its trees, and the time. -/
structure Snapshot where
  disk : Disk
  trees : List (String × List Tree)
  time : String

namespace Snapshot

open Json

/-- Reads the nodes of a tree, the first of which is the `id`-th. -/
def entries? (id : Nat) : List Json → Option (List Tree.Entry)
  | [] => some []
  | label :: start :: stop :: count :: rest => do
    let entry := Tree.Entry.parse id (← label.string?) (← start.nat64?) (← stop.nat64?)
      (← count.nat64?)
    return entry :: (← entries? (id + 1) rest)
  | _ => none

/-- Reads a tree. -/
def tree? : Json → Option Tree
  | .array nodes => (entries? 0 nodes).bind Tree.ofPreorder?
  | _ => none

/-- Reads the members of an object. -/
def members? {α : Type} (item : Json → Option α) : Json → Option (List (String × α))
  | .object members => members.mapM fun (key, j) => (item j).map fun a => (key, a)
  | _ => none

def content? : Json → Option Content
  | .string s => some (.text s)
  | .null => some .binary
  | _ => none

/-- Reads a snapshot. -/
def ofJson? (j : Json) : Option Snapshot := do
  match ← fields? false [["root"], ["files"], ["trees"], ["time"]] j with
  | [root, files, trees, time] =>
    let root ← defaulted "." string? root
    let files ← required (members? content?) files
    return {
      disk := { root, files := files.map fun (path, c) => (Path.pieces path, c) }
      trees := ← defaulted [] (members? (list? tree?)) trees
      time := ← defaulted "" string? time }
  | _ => none

/-- The tree of a file after a number of passes; without one a tree without nodes. -/
def treeOf (s : Snapshot) (path : String) (passes : Nat) : Tree :=
  match s.disk.resolve path with
  | .ok place => (((s.trees.lookup (Text.join "/" place)).getD [])[passes]?).getD default
  | .error _ => default

def session (s : Snapshot) : Session :=
  { disk := s.disk, parse := fun path passes _ => s.treeOf path passes, time := s.time
    elapsed := "0.00", color := false }

end Snapshot

end HookLint.Command
