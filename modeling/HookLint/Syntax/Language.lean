/-
The languages a file can be written in, by its extension.
-/
import HookLint.Files.Path

namespace HookLint.Syntax

inductive Language where
  | javaScript
  | typeScript
  | tsx
  deriving DecidableEq, Repr

namespace Language

def name : Language → String
  | javaScript => "JavaScript"
  | typeScript => "TypeScript"
  | tsx => "TSX"

/-- The extensions of source files. -/
def extensions : List String := ["js", "jsx", "mjs", "cjs", "ts", "mts", "cts", "tsx"]

def ofExtension? : String → Option Language
  | "js" => some javaScript
  | "jsx" => some javaScript
  | "mjs" => some javaScript
  | "cjs" => some javaScript
  | "ts" => some typeScript
  | "mts" => some typeScript
  | "cts" => some typeScript
  | "tsx" => some tsx
  | _ => none

/-- The language of a file. -/
def ofPath? (path : String) : Option Language := (Files.Path.extension? path).bind ofExtension?

end Language

end HookLint.Syntax
