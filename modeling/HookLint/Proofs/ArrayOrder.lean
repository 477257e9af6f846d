/-
The order of a dependency array does not matter.

A comparison goes through an array once and remembers the paths it has met: the first
occurrence of a path is judged, and every later one is a duplicate.  So in another order
other entries are kept, and other positions.  What stays is how often each path gets each
sort of verdict.  Where entries for one path start at one binding, that depends on the
number of its occurrences alone: `tally` is this number, and `count_pathsWhere` says that
the loop arrives at it, whatever stands before and between the occurrences.

Two lists in which everything occurs equally often are permutations of each other, and
the rest follows from that (`compare_perm`).
-/
import HookLint.Proofs.Accounting

namespace HookLint.Dependency

open HookLint.Scope

variable {req : Requirements} {classify : BindingId → Stability} {es es' : List Entry}

/-- Entries that declare one path start at one binding. -/
def RootsAgree (es : List Entry) : Prop :=
  ∀ e ∈ es, ∀ e' ∈ es, ∀ p ∈ e.path?, e'.path? = some p → e.root = e'.root

instance (es : List Entry) : Decidable (RootsAgree es) :=
  inferInstanceAs (Decidable
    (∀ e ∈ es, ∀ e' ∈ es, ∀ p ∈ e.path?, e'.path? = some p → e.root = e'.root))

/-! ### One verdict for a path -/

/-- The verdict on a path wherever it occurs for the first time. -/
def Judges (req : Requirements) (classify : BindingId → Stability) (es : List Entry)
    (judge : Path → Verdict) : Prop :=
  ∀ e ∈ es, ∀ p, e.path? = some p → verdictOnPath req (e.stability classify) p = judge p

/-- Where roots agree, all occurrences of a path would be judged alike. -/
theorem exists_judges (req : Requirements) (classify : BindingId → Stability)
    (hroots : RootsAgree es) : ∃ judge, Judges req classify es judge := by
  -- Any occurrence will do, so the first is asked.
  refine ⟨fun p => ((es.find? (·.path? = some p)).map
    fun e => verdictOnPath req (e.stability classify) p).getD .keep, ?_⟩
  intro e he p hpath
  show _ = ((es.find? (·.path? = some p)).map
    fun e => verdictOnPath req (e.stability classify) p).getD .keep
  cases hfind : es.find? (·.path? = some p) with
  | none =>
      have hnone := List.find?_eq_none.mp hfind e he
      simp [hpath] at hnone
  | some e' =>
      have hpath' : e'.path? = some p := by simpa using List.find?_some hfind
      have hroot : e.root = e'.root :=
        hroots e he e' (List.mem_of_find?_eq_some hfind) p hpath hpath'
      show _ = verdictOnPath req (e'.stability classify) p
      rw [Entry.stability, Entry.stability, hroot]

theorem Judges.of_perm {judge : Path → Verdict} (h : Judges req classify es judge)
    (hperm : es.Perm es') : Judges req classify es' judge :=
  fun e he => h e (hperm.mem_iff.mpr he)

/-! ### Counting verdicts -/

/-- How many of a number of occurrences of a path pass a test, when the path is judged where it
occurs first and is a duplicate afterwards. -/
def tally (test : Verdict → Bool) (judged : Verdict) : Bool → Nat → Nat
  | _, 0 => 0
  | seen, n + 1 =>
    (if test (if seen then .duplicate else judged) then 1 else 0) + tally test judged true n

/-- The loop gives every path its tally of verdicts. -/
theorem count_pathsWhere {judge : Path → Verdict} (test : Verdict → Bool) (p : Path) :
    ∀ {es : List Entry} {seen : List Path}, Judges req classify es judge →
      (pathsWhere test (es.zip (verdictsAfter req classify seen es))).count p =
        tally test (judge p) (decide (p ∈ seen)) ((es.filterMap (·.path?)).count p) := by
  intro es
  induction es with
  | nil =>
      intro seen _
      rfl
  | cons e es ih =>
      intro seen hjudge
      have hrest : Judges req classify es judge :=
        fun e' he' => hjudge e' (List.mem_cons_of_mem _ he')
      rw [verdictsAfter, List.zip_cons_cons, ← List.singleton_append, pathsWhere_append,
        pathsWhere_singleton, List.count_append, ih hrest]
      cases hpath : e.path? with
      | none => simp [hpath]
      | some q =>
          rw [List.filterMap_cons_some hpath, List.count_cons, verdict_of_path? hpath,
            hjudge e List.mem_cons_self q hpath]
          have hone (v : Verdict) : (if test v = true then (some q).toList else []).count p =
              if q = p ∧ test v = true then 1 else 0 := by
            by_cases htest : test v = true
            · by_cases hqp : q = p <;> simp [htest, hqp]
            · simp [htest]
          by_cases hpq : q = p
          · -- One more occurrence: the first is judged, and from there on the path is known.
            subst hpq
            have hseen : decide (q ∈ seen ++ (some q).toList) = true := by simp
            have hverdict : (if decide (q ∈ seen) = true then Verdict.duplicate else judge q) =
                if q ∈ seen then .duplicate else judge q := by simp
            rw [hseen, if_pos (beq_self_eq_true q), tally, hverdict, hone]
            simp
          · have hseen : decide (p ∈ seen ++ (some q).toList) = decide (p ∈ seen) := by
              simp [Ne.symm hpq]
            rw [hseen, hone, if_neg fun h => hpq h.1, if_neg (by simpa using hpq), Nat.zero_add,
              Nat.add_zero]

/-- Whatever is asked of the verdicts, the paths that pass are the same up to their order. -/
theorem pathsWhere_perm (hperm : es.Perm es') (hroots : RootsAgree es) (test : Verdict → Bool) :
    (pathsWhere test (judged req classify es)).Perm
      (pathsWhere test (judged req classify es')) := by
  obtain ⟨judge, hjudge⟩ := exists_judges req classify hroots
  rw [List.perm_iff_count]
  intro p
  have hcount : (es.filterMap (·.path?)).count p = (es'.filterMap (·.path?)).count p :=
    (hperm.filterMap _).count_eq p
  show (pathsWhere test (es.zip (verdictsAfter req classify [] es))).count p =
    (pathsWhere test (es'.zip (verdictsAfter req classify [] es'))).count p
  rw [count_pathsWhere test p hjudge, count_pathsWhere test p (hjudge.of_perm hperm), hcount]

/-! ### The parts of a comparison -/

/-- The paths of the entries that are kept. -/
def keptPaths (req : Requirements) (classify : BindingId → Stability) (es : List Entry) :
    List Path :=
  (compare req es classify).kept.filterMap (pathAt? es)

theorem keptPaths_eq : keptPaths req classify es =
    pathsWhere (· == .keep) (judged req classify es) := by
  have hbind : keptPaths req classify es =
      ((compare req es classify).kept.filterMap (es[·]?)).filterMap (·.path?) := by
    rw [keptPaths, List.filterMap_filterMap]
    rfl
  rw [hbind, filterMap_kept, survivors_eq, pathsWhere, List.filterMap_map]
  rfl

/-- What nothing covers depends on the declared paths, and not on their order. -/
theorem uncovered_perm {declared declared' : List Path} (hperm : declared.Perm declared')
    (required : List Path) : uncovered required declared = uncovered required declared' := by
  unfold uncovered
  refine List.filter_congr fun q _ => ?_
  rw [hperm.any_eq]

theorem missing_perm (hperm : es.Perm es') :
    (compare req es classify).missing = (compare req es' classify).missing := by
  rw [missing_eq, missing_eq, uncovered_perm (hperm.filterMap _)]

/-- The verdict on an array does not depend on its order.  The same paths are missing, in the same
order, and the unnecessary paths, the duplicate ones and those of the kept entries are the same up
to their order; so an array is clean in every order or in none. -/
theorem compare_perm (req : Requirements) (classify : BindingId → Stability) (hperm : es.Perm es')
    (hroots : RootsAgree es) :
    (compare req es classify).missing = (compare req es' classify).missing ∧
    (compare req es classify).unnecessary.Perm (compare req es' classify).unnecessary ∧
    (compare req es classify).duplicate.Perm (compare req es' classify).duplicate ∧
    (keptPaths req classify es).Perm (keptPaths req classify es') ∧
    (compare req es classify).isClean = (compare req es' classify).isClean := by
  have hmissing : (compare req es classify).missing = (compare req es' classify).missing :=
    missing_perm hperm
  have hunnecessary : (compare req es classify).unnecessary.Perm
      (compare req es' classify).unnecessary := by
    rw [unnecessary_eq, unnecessary_eq]
    exact pathsWhere_perm hperm hroots _
  have hduplicate : (compare req es classify).duplicate.Perm
      (compare req es' classify).duplicate := by
    rw [duplicate_eq, duplicate_eq]
    exact pathsWhere_perm hperm hroots _
  refine ⟨hmissing, hunnecessary, hduplicate, ?_, ?_⟩
  · rw [keptPaths_eq, keptPaths_eq]
    exact pathsWhere_perm hperm hroots _
  · rw [Diff.isClean, Diff.isClean, hmissing, hunnecessary.isEmpty_eq, hduplicate.isEmpty_eq]

/-- The entry for a path, of a binding. -/
def entryOf (path : String) (root : Option BindingId) : Entry :=
  { plainEntry with text := path, kind := .path ⟨path⟩, root }

/-- Two of its paths stand twice, one of them with a global root, and one path is a mutable slot. -/
def repeatedEntries : List Entry :=
  [entryOf "x.y" (some 0), entryOf "g" none, entryOf "x.current" (some 0),
    { plainEntry with kind := .complex }, entryOf "x.y" (some 0), entryOf "g" none,
    entryOf "a.b.c" (some 1)]

theorem compare_perm_reverse :
    RootsAgree repeatedEntries ∧
    (compare chainedRequirements repeatedEntries fun _ => .reactive).missing = [⟨"a.b"⟩, ⟨"x"⟩] ∧
    (compare chainedRequirements repeatedEntries.reverse fun _ => .reactive).missing =
      [⟨"a.b"⟩, ⟨"x"⟩] ∧
    (compare chainedRequirements repeatedEntries fun _ => .reactive).unnecessary.Perm
      (compare chainedRequirements repeatedEntries.reverse fun _ => .reactive).unnecessary ∧
    (compare chainedRequirements repeatedEntries fun _ => .reactive).duplicate =
      [⟨"x.y"⟩, ⟨"g"⟩] ∧
    (compare chainedRequirements repeatedEntries.reverse fun _ => .reactive).duplicate =
      [⟨"g"⟩, ⟨"x.y"⟩] := by
  have hroots : RootsAgree repeatedEntries := by decide
  have hmissing : (compare chainedRequirements repeatedEntries fun _ => .reactive).missing =
      [⟨"a.b"⟩, ⟨"x"⟩] := by decide
  obtain ⟨hsame, hunnecessary, -⟩ := compare_perm chainedRequirements (fun _ => .reactive)
    (List.reverse_perm repeatedEntries).symm hroots
  exact ⟨hroots, hmissing, hsame ▸ hmissing, hunnecessary, by decide, by decide⟩

end HookLint.Dependency
