/-
The command that writes a configuration to start from.
-/
import HookLint.Command.Session

namespace HookLint.Command

open HookLint.Files

/-- Writes a configuration into the directory at a path.  One that is there is kept, unless
`force`. -/
def init (s : Session) (path : String) (force : Bool) : Except Failure Outcome := do
  let (place, node) ← target s path
  if node ≠ .directory then
    let file := s.disk.pathOf place
    throw { message := s!"Path is not a directory: {file}" }
  let file := s.disk.pathOf (place ++ ["hookdeps.toml"])
  if s.disk.contains file && !force then
    return {
      out := s!"✓ Already initialized at {file} (use --force to overwrite)\n", disk := s.disk }
  match s.disk.write file Config.starter with
  | .error obstacle =>
    throw { message := s!"Failed to write {file}", causes := [obstacle.reason] }
  | .ok disk => return {
      disk
      out := s!"✓ Created {file}\n\nNext steps:\n" ++
        "  1. List hooks with stable results under safe_hooks\n" ++
        "  2. Run hookdeps check to check your components\n" }

end HookLint.Command
