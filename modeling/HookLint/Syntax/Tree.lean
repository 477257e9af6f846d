/-
Syntax trees.

A tree is a labelled node over the list of its children, tokens and comments
included.  The label carries the number that identifies the node, so two
occurrences of one node can be recognised without comparing subtrees.

Trees arrive as a list of nodes in pre-order, each with the number of its
children; `Tree.ofPreorder?` folds that list from its end, where every node finds
its children finished, and numbers the nodes by their place in the list.
-/
import HookLint.Syntax.Kind

namespace HookLint.Syntax

/-- The roles a child can play for its parent. -/
inductive Field where
  | alias | alternative | argument | arguments | body | consequence | function | index | key
  | kind | left | name | object | operator | optionalChain | parameter | parameters | pattern
  | property | right | source | value
  deriving DecidableEq, Repr

/-- The field of the grammar's field name. -/
def Field.ofName? : String → Option Field
  | "alias" => some .alias
  | "alternative" => some .alternative
  | "argument" => some .argument
  | "arguments" => some .arguments
  | "body" => some .body
  | "consequence" => some .consequence
  | "function" => some .function
  | "index" => some .index
  | "key" => some .key
  | "kind" => some .kind
  | "left" => some .left
  | "name" => some .name
  | "object" => some .object
  | "operator" => some .operator
  | "optional_chain" => some .optionalChain
  | "parameter" => some .parameter
  | "parameters" => some .parameters
  | "pattern" => some .pattern
  | "property" => some .property
  | "right" => some .right
  | "source" => some .source
  | "value" => some .value
  | _ => none

/-- What a node says of itself, apart from its children. -/
structure Label where
  /-- identifies the node within its tree -/
  id : Nat
  /-- the grammar's name for the node -/
  name : String
  kind : Kind
  /-- false for punctuation and keywords -/
  named : Bool
  /-- the subtree holds a syntax error -/
  hasError : Bool
  /-- the fields of the parent this node fills -/
  fields : List Field
  /-- first byte -/
  start : Nat
  /-- byte after the last -/
  stop : Nat
  deriving Repr, Inhabited

/-- A syntax tree. -/
inductive Tree where
  | node (label : Label) (children : List Tree)
  deriving Inhabited

namespace Tree

def label : Tree → Label
  | node l _ => l

def children : Tree → List Tree
  | node _ cs => cs

abbrev kind (t : Tree) : Kind := t.label.kind
abbrev id (t : Tree) : Nat := t.label.id

theorem sizeOf_lt_of_mem_children {c t : Tree} (h : c ∈ t.children) : sizeOf c < sizeOf t := by
  cases t with
  | node l cs =>
    have := List.sizeOf_lt_of_mem h
    simp only [children] at this
    simp only [node.sizeOf_spec]
    omega

/-- A node of a pre-order list: its label and the number of its children. -/
structure Entry where
  label : Label
  childCount : Nat

/-- Reads `["!"] fields ":" ["'"] name`: an error mark, the fields separated by bars, and
the node's name with a mark for tokens. -/
def Entry.parse (id : Nat) (text : String) (start stop childCount : Nat) : Entry :=
  let cs := text.toList
  let (hasError, cs) := match cs with
    | '!' :: rest => (true, rest)
    | _ => (false, cs)
  let fieldText := String.ofList (cs.takeWhile (· ≠ ':'))
  let nameText := (cs.dropWhile (· ≠ ':')).drop 1
  let (named, nameChars) := match nameText with
    | '\'' :: rest => (false, rest)
    | _ => (true, nameText)
  let name := String.ofList nameChars
  { label :=
      { id, name, kind := Kind.ofName name, named, hasError
        fields := (fieldText.splitOn "|").filterMap Field.ofName?
        start, stop }
    childCount }

/-- Puts a node over the finished trees to its right. -/
def Entry.attach (e : Entry) (finished : List Tree) : List Tree :=
  node e.label (finished.take e.childCount) :: finished.drop e.childCount

/-- The tree whose nodes are listed in pre-order. -/
def ofPreorder? (entries : List Entry) : Option Tree :=
  match entries.foldr Entry.attach [] with
  | [t] => some t
  | _ => none

end Tree

end HookLint.Syntax
