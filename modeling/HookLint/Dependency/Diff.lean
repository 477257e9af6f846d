/-
Declared dependencies against required ones.

The declared entries are taken in one by one.  The first occurrence of a path is kept
when it covers something the callback needs, or is a stable value the callback reads;
it is unnecessary when it is a ref's mutable slot, is declared outside the render
function, or is simply not used.  Later occurrences are duplicates.

A required path is missing when no declared path covers it.  Of several missing
paths only those are reported that no other missing path covers.
-/
import HookLint.Dependency.Declared
import HookLint.Dependency.Read
import HookLint.Dependency.Stability

namespace HookLint.Dependency

open HookLint.Scope

/-! ### What a callback requires -/

/-- The paths a callback depends on. -/
structure Requirements where
  /-- reactive paths, in order of first reading -/
  reactive : List Path
  /-- paths of stable render-scope values -/
  stable : List Path
  deriving Repr

/-- `l` without its repetitions: the first of equal elements stays. -/
def firsts {α : Type} [DecidableEq α] (l : List α) : List α :=
  l.foldl (fun seen a => if a ∈ seen then seen else seen ++ [a]) []

/-- The requirements of a list of reads. -/
def Requirements.ofReads (reads : List Read) (classify : BindingId → Stability) : Requirements :=
  { reactive := firsts ((reads.filter fun r => classify r.binding == .reactive).map (·.path))
    stable := firsts ((reads.filter fun r => (classify r.binding).isStable).map (·.path)) }

/-! ### The difference -/

/-- How a dependency array differs from what it should be. -/
structure Diff where
  missing : List Path := []
  unnecessary : List Path := []
  duplicate : List Path := []
  /-- positions of the entries a corrected array keeps -/
  kept : List Nat := []
  /-- the first unnecessary path declared outside the render function -/
  outerScope : Option Path := none
  /-- the first unnecessary mutable slot -/
  mutableSlot : Option Path := none
  deriving DecidableEq, Repr

namespace Diff

/-- Nothing is missing, unnecessary or duplicate. -/
def isClean (d : Diff) : Bool :=
  d.missing.isEmpty && d.unnecessary.isEmpty && d.duplicate.isEmpty

def keep (d : Diff) (position : Nat) : Diff := { d with kept := d.kept ++ [position] }

def reject (d : Diff) (p : Path) : Diff := { d with unnecessary := d.unnecessary ++ [p] }

/-- Takes in the first occurrence of a path. -/
def addFirst (d : Diff) (req : Requirements) (stability : Stability) (p : Path)
    (position : Nat) : Diff :=
  if p.isMutableSlot then { d.reject p with mutableSlot := d.mutableSlot.or (some p) }
  else if stability = .external then { d.reject p with outerScope := d.outerScope.or (some p) }
  else if req.reactive.any p.covers ||
      (stability.isStable && req.stable.any fun s => p.covers s || s.covers p) then
    d.keep position
  else d.reject p

end Diff

/-- The stability of what an entry starts at; a global is external. -/
def Entry.stability (e : Entry) (classify : BindingId → Stability) : Stability :=
  match e.root with
  | some b => classify b
  | none => .external

/-- A comparison under way. -/
structure Scan where
  diff : Diff := {}
  /-- the paths declared so far, each once -/
  seen : List Path := []
  deriving Repr

/-- Takes in an entry and its position. -/
def Scan.add (req : Requirements) (classify : BindingId → Stability) (s : Scan)
    (x : Entry × Nat) : Scan :=
  match x.1.kind with
  | .literal => s
  | .complex => { s with diff := s.diff.keep x.2 }
  | .path p =>
    if p ∈ s.seen then { s with diff := { s.diff with duplicate := s.diff.duplicate ++ [p] } }
    else { diff := s.diff.addFirst req (x.1.stability classify) p x.2, seen := s.seen ++ [p] }

/-- All entries of an array, taken in one after another. -/
def scan (req : Requirements) (classify : BindingId → Stability) (declared : List Entry) : Scan :=
  declared.zipIdx.foldl (Scan.add req classify) {}

/-- The required paths that no declared path covers. -/
def uncovered (required declared : List Path) : List Path :=
  required.filter fun r => !declared.any (·.covers r)

/-- The paths of a list that no other path of it covers. -/
def outermostPaths (paths : List Path) : List Path :=
  paths.filter fun p => !paths.any fun q => q ≠ p && q.covers p

/-- Compares a dependency array with what is required. -/
def compare (req : Requirements) (declared : List Entry) (classify : BindingId → Stability) :
    Diff :=
  let s := scan req classify declared
  { s.diff with missing := outermostPaths (uncovered req.reactive s.seen) }

end HookLint.Dependency
