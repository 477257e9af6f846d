/-
The command line.

A command line has options, at most one path and at most one command, in any order;
what follows the command belongs to it.  Some options may stand before or after the
command, and then the one after it counts.  An option is given once at each of the
two places.  A lone double dash ends the options.
-/
import HookLint.Text.Blank

namespace HookLint.Command

/-! ### Options -/

/-- What an option is followed by. -/
inductive Argument where
  | none
  /-- a value that passes a test -/
  | value (accepts : String → Bool)

/-- An option. -/
structure OptionSpec where
  name : String
  letter : Option Char := none
  argument : Argument := .none

/-- A number written in decimal digits, with or without a plus sign. -/
def number? (s : String) : Option Nat :=
  let digits := match s.toList with
    | '+' :: rest => rest
    | cs => cs
  if digits.isEmpty || !digits.all Char.isDigit then none
  else some (digits.foldl (fun n c => n * 10 + (c.toNat - 48)) 0)

/-- How many workers there may be. -/
def isWorkerCount (s : String) : Bool := (number? s).any fun n => 1 ≤ n && n ≤ 64

def isFilled (s : String) : Bool := s ≠ ""

def isOneOf (words : List String) (s : String) : Bool := words.contains s

/-- The options that may stand before or after the command. -/
def sharedOptions : List OptionSpec :=
  [{ name := "log-level"
     argument := .value (isOneOf ["error", "warn", "info", "debug", "trace"]) },
   { name := "workers", argument := .value isWorkerCount },
   { name := "config", argument := .value isFilled },
   { name := "help", letter := some 'h' }]

/-- The options without a command. -/
def topOptions : List OptionSpec :=
  sharedOptions ++ [{ name := "version", letter := some 'V' }]

/-- The options of each command. -/
def commandOptions : List (String × List OptionSpec) :=
  [("check", sharedOptions ++
     [{ name := "format", letter := some 'f'
        argument := .value (isOneOf ["text", "json", "sarif"]) },
      { name := "output", letter := some 'o', argument := .value isFilled },
      { name := "fail-on"
        argument := .value (isOneOf ["critical", "high", "medium", "low", "info"]) }]),
   ("fix", sharedOptions ++ [{ name := "dry-run" }]),
   ("init", sharedOptions ++ [{ name := "force" }])]

/-! ### One place -/

/-- What was given at one place: the path and the options. -/
structure Given where
  path : Option String := none
  options : List (String × String) := []

/-- Where reading a command line can end before its end. -/
inductive Stop where
  | help
  | version
  /-- the command line is none -/
  | misuse
  deriving DecidableEq, Repr

namespace Given

def option? (g : Given) (name : String) : Option String := g.options.lookup name

def has (g : Given) (name : String) : Bool := (g.option? name).isSome

/-- Takes account of an option and its value. -/
def addOption (g : Given) (spec : OptionSpec) (value : String) : Except Stop Given :=
  if spec.name = "help" then .error .help
  else if spec.name = "version" then .error .version
  else if g.has spec.name then .error .misuse
  else match spec.argument with
    | .none => .ok { g with options := g.options ++ [(spec.name, "")] }
    | .value accepts =>
      if accepts value then .ok { g with options := g.options ++ [(spec.name, value)] }
      else .error .misuse

/-- Takes account of a path. -/
def addPath (g : Given) (path : String) : Except Stop Given :=
  if g.path.isSome || path = "" then .error .misuse else .ok { g with path := some path }

end Given

/-- A word that starts with a dash and goes on. -/
def looksLikeOption (word : String) : Bool :=
  match word.toList with
  | '-' :: _ :: _ => true
  | _ => false

/-- The option a word names, and the value that stands in the word itself. -/
inductive OptionWord where
  | unknown
  | found (spec : OptionSpec) (attached : Option String)

/-- Reads a word that starts with two dashes, which are cut off. -/
def longOption (specs : List OptionSpec) (word : List Char) : OptionWord :=
  let name := String.ofList (word.takeWhile (· ≠ '='))
  let attached := match word.dropWhile (· ≠ '=') with
    | _ :: value => some (String.ofList value)
    | [] => none
  match specs.find? (·.name == name) with
  | some spec => .found spec attached
  | none => .unknown

/-- Reads a word that starts with one dash, which is cut off. -/
def shortOption (specs : List OptionSpec) (word : List Char) : OptionWord :=
  match word with
  | [] => .unknown
  | letter :: rest =>
    let attached := match rest with
      | [] => none
      | '=' :: value => some (String.ofList value)
      | value => some (String.ofList value)
    match specs.find? (·.letter == some letter) with
    | some spec => .found spec attached
    | none => .unknown

/-- Reads a word that looks like an option. -/
def optionWord (specs : List OptionSpec) (word : String) : OptionWord :=
  match word.toList with
  | '-' :: '-' :: rest => longOption specs rest
  | '-' :: rest => shortOption specs rest
  | _ => .unknown

/-- Takes account of words after a double dash. -/
def readPaths (given : Given) (words : List String) : Except Stop Given :=
  words.foldlM Given.addPath given

/-- What was given at one place, and the command that follows with its words. -/
abbrev Part := Given × Option (String × List String)

/-- What has been read, and the option that waits for its value. -/
structure Reading where
  given : Given := {}
  waiting : Option OptionSpec := none

namespace Reading

/-- Gives an option its value. -/
def complete (r : Reading) (spec : OptionSpec) (value : String) : Except Stop Reading :=
  (r.given.addOption spec value).map fun given => { given }

/-- Takes account of a word that looks like an option. -/
def addOptionWord (r : Reading) (specs : List OptionSpec) (word : String) :
    Except Stop Reading :=
  match optionWord specs word with
  | .unknown => .error .misuse
  | .found spec attached =>
    match spec.argument, attached with
    | .none, none => r.complete spec ""
    | .none, some _ => .error .misuse
    | .value _, some value => r.complete spec value
    | .value _, none => .ok { r with waiting := some spec }

/-- Takes account of a word that is no command. -/
def addWord (r : Reading) (specs : List OptionSpec) (word : String) : Except Stop Reading :=
  match r.waiting with
  | some spec => if looksLikeOption word then .error .misuse else r.complete spec word
  | none =>
    if looksLikeOption word then r.addOptionWord specs word
    else (r.given.addPath word).map fun given => { given }

end Reading

/-- Reads words up to a command. -/
def readPart (specs : List OptionSpec) (commands : List String) (r : Reading) :
    List String → Except Stop Part
  | [] => if r.waiting.isSome then .error .misuse else .ok (r.given, none)
  | word :: words =>
    if r.waiting.isNone && commands.contains word then .ok (r.given, some (word, words))
    else if r.waiting.isNone && word = "--" then
      (readPaths r.given words).map fun given => (given, none)
    else do readPart specs commands (← r.addWord specs word) words

/-! ### The whole -/

/-- What is to be done. -/
inductive Action where
  | check (format output failOn : Option String)
  | fix (dryRun : Bool)
  | init (force : Bool)
  deriving DecidableEq, Repr

/-- A command line. -/
structure Invocation where
  path : String
  workers : Option Nat
  config : Option String
  action : Action
  deriving DecidableEq, Repr

/-- The action a command asks for; without a command it is a check. -/
def actionOf (command : String) (given : Given) : Action :=
  match command with
  | "fix" => .fix (given.has "dry-run")
  | "init" => .init (given.has "force")
  | _ => .check (given.option? "format") (given.option? "output") (given.option? "fail-on")

/-- Puts together what was given before and after a command. -/
def invocation (before after : Given) (action : Action) : Invocation :=
  let shared (name : String) : Option String := (after.option? name).orElse fun _ => before.option? name
  { path := (after.path.orElse fun _ => before.path).getD "."
    workers := (shared "workers").bind number?
    config := shared "config"
    action }

/-- Reads a command line. -/
def Invocation.parse (words : List String) : Except Stop Invocation := do
  let names := commandOptions.map (·.1)
  let (before, command) ← readPart topOptions ("help" :: names) {} words
  match command with
  | none => return invocation before {} (actionOf "check" {})
  | some (name, words) =>
    match commandOptions.lookup name with
    | none =>
      -- the command that asks for help takes the name of a command
      if words.all names.contains then throw .help else throw .misuse
    | some specs =>
      let (after, _) ← readPart specs [] {} words
      return invocation before after (actionOf name after)

end HookLint.Command
