/-
Loading the configuration of a project.
-/
import HookLint.Config.Decode
import HookLint.Files.Disk
import HookLint.Format.JsonReader
import HookLint.Format.TomlReader

namespace HookLint.Config

open HookLint.Files

/-- The names of configuration files, in order of preference. -/
def fileNames : List String := ["hookdeps.toml", ".hookdepsrc.json"]

/-- Reads a configuration; the extension says in which format it is. -/
def parse (path content : String) : Except Fault Config :=
  if Path.extension? path = some "json" then
    match (Json.parse? content).bind (ofJson? true) with
    | some config => .ok config
    | none => .error (.invalidJson path)
  else
    match (Toml.parse? content).bind (ofJson? false) with
    | some config => .ok config
    | none => .error (.invalidToml path)

/-- Loads one file. -/
def load (d : Disk) (path : String) : Except Fault Config :=
  match d.read path with
  | .ok content => parse path content
  | .error obstacle => .error (.unreadable path obstacle.reason)

/-- Loads the first file of a project that can be loaded; without one the defaults hold. -/
def loadProject (d : Disk) (root : String) : Config :=
  (fileNames.findSome? fun name => (load d (Path.append root name)).toOption).getD {}

/-- A configuration with comments, to start from. -/
def starter : String :=
  "# hookdeps configuration\n\n" ++
  "[rules.exhaustive-deps]\n" ++
  "enabled = true\n" ++
  "# info, low, medium, high, critical\n" ++
  "severity = \"medium\"\n\n" ++
  "# Hooks whose return value never changes identity.\n" ++
  "# [\"name\"] marks the whole result stable, [\"name\", 0] only that array element.\n" ++
  "safe_hooks = [\n" ++
  "  # [\"useDispatch\"],\n" ++
  "  # [\"useForm\", 0],\n" ++
  "]\n\n" ++
  "# Regex for custom hooks that take a callback and a dependency array\n" ++
  "# additional_hooks = \"(useMyEffect|useDebouncedCallback)\"\n\n" ++
  "[exclude]\n" ++
  "paths = []\n\n" ++
  "[defaults]\n" ++
  "format = \"text\"\n" ++
  "# fail_on = \"high\"\n"

end HookLint.Config
