/-
What a comparison keeps, and what it asks for.

A comparison takes in one entry after another.  What it does with an entry is a verdict, which
depends on the paths that stand before the entry, and every entry that is taken in keeps the
result equal to what the verdicts amount to (`Scan.Follows.add`); so the parts of a comparison
can be read off the verdicts (`compare_eq`).

`survivors` are the entries a comparison keeps.  A second comparison keeps them all,
because fewer paths stand before each of them, and what is asked for can be put after
them.  What is left to check is that no requirement hangs on an entry that is thrown
out: `compare_settles` says that nothing else can go wrong.
-/
import HookLint.Dependency.Diff
import HookLint.Proofs.Paths
import Mathlib.Data.List.Induction

namespace HookLint.Dependency

open HookLint.Scope

/-! ### First occurrences -/

theorem firsts_aux {α : Type} [DecidableEq α] (l : List α) : ∀ seen : List α, seen.Nodup →
    (l.foldl (fun seen a => if a ∈ seen then seen else seen ++ [a]) seen).Nodup ∧
      ∀ a, a ∈ l.foldl (fun seen a => if a ∈ seen then seen else seen ++ [a]) seen ↔
        a ∈ seen ∨ a ∈ l := by
  induction l with
  | nil => intro seen hseen; exact ⟨hseen, by simp⟩
  | cons x xs ih =>
      intro seen hseen
      rw [List.foldl_cons]
      by_cases hx : x ∈ seen
      · rw [if_pos hx]
        refine ⟨(ih seen hseen).1, fun a => ?_⟩
        rw [(ih seen hseen).2, List.mem_cons]
        constructor
        · exact Or.imp_right Or.inr
        · rintro (h | rfl | h)
          · exact Or.inl h
          · exact Or.inl hx
          · exact Or.inr h
      · rw [if_neg hx]
        have hnodup : (seen ++ [x]).Nodup := by
          rw [List.nodup_append]
          refine ⟨hseen, by simp, fun a ha b hb => ?_⟩
          rw [List.mem_singleton.mp hb]
          rintro rfl
          exact hx ha
        refine ⟨(ih _ hnodup).1, fun a => ?_⟩
        rw [(ih _ hnodup).2, List.mem_append, List.mem_singleton, List.mem_cons, or_assoc]

theorem mem_firsts {α : Type} [DecidableEq α] {l : List α} {a : α} : a ∈ firsts l ↔ a ∈ l := by
  rw [firsts, (firsts_aux l [] List.nodup_nil).2]
  simp

theorem nodup_firsts {α : Type} [DecidableEq α] (l : List α) : (firsts l).Nodup :=
  (firsts_aux l [] List.nodup_nil).1

/-- What is required is the path of a read of a reactive binding. -/
theorem mem_reactive {reads : List Read} {classify : BindingId → Stability} {q : Path} :
    q ∈ (Requirements.ofReads reads classify).reactive ↔
      ∃ read ∈ reads, read.path = q ∧ classify read.binding = .reactive := by
  unfold Requirements.ofReads
  rw [mem_firsts, List.mem_map]
  constructor
  · rintro ⟨read, hread, hpath⟩
    obtain ⟨hread, hclass⟩ := List.mem_filter.mp hread
    exact ⟨read, hread, hpath, by simpa using hclass⟩
  · rintro ⟨read, hread, hpath, hclass⟩
    exact ⟨read, List.mem_filter.mpr ⟨hread, by simpa using hclass⟩, hpath⟩

/-! ### Uncovered paths -/

theorem mem_uncovered {required declared : List Path} {q : Path} :
    q ∈ uncovered required declared ↔ q ∈ required ∧ ∀ d ∈ declared, d.covers q = false := by
  simp [uncovered]

theorem mem_outermostPaths {paths : List Path} {p : Path} :
    p ∈ outermostPaths paths ↔ p ∈ paths ∧ ∀ q ∈ paths, q ≠ p → q.covers p = false := by
  simp [outermostPaths]

/-- Every path of a list is covered by an outermost one. -/
theorem exists_outermost_covers {paths : List Path} : ∀ (n : Nat) (p : Path),
    p.text.toList.length = n → p ∈ paths → ∃ q ∈ outermostPaths paths, q.covers p = true := by
  intro n
  induction n using Nat.strong_induction_on with
  | _ n ih =>
      intro p hn hp
      by_cases hout : p ∈ outermostPaths paths
      · exact ⟨p, hout, p.covers_refl⟩
      · have hcovered : ∃ q ∈ paths, q ≠ p ∧ q.covers p = true := by
          by_contra hnone
          refine hout (mem_outermostPaths.mpr ⟨hp, fun q hq hne => ?_⟩)
          by_contra hcov
          exact hnone ⟨q, hq, hne, by simpa using hcov⟩
        obtain ⟨q, hq, hne, hcov⟩ := hcovered
        obtain ⟨m, hm, hmq⟩ := ih _ (hn ▸ Path.length_lt_of_covers hcov hne) q rfl hq
        exact ⟨m, hm, Path.covers_trans hmq hcov⟩

/-! ### Verdicts -/

/-- What becomes of a declared entry. -/
inductive Verdict where
  | keep
  /-- a literal, which is neither kept nor counted -/
  | ignore
  /-- the path was declared before -/
  | duplicate
  /-- a ref's mutable slot -/
  | mutable
  /-- declared outside the render function -/
  | outer
  /-- not used by the callback -/
  | unused
  deriving DecidableEq, Repr

def Verdict.isUnnecessary : Verdict → Bool
  | mutable | outer | unused => true
  | _ => false

/-- The verdict on the first occurrence of a path. -/
def verdictOnPath (req : Requirements) (stability : Stability) (p : Path) : Verdict :=
  if p.isMutableSlot then .mutable
  else if stability = .external then .outer
  else if req.reactive.any p.covers then .keep
  else if stability.isStable && req.stable.any fun s => p.covers s || s.covers p then .keep
  else .unused

/-- The verdict on an entry, given the paths declared before it. -/
def verdict (req : Requirements) (classify : BindingId → Stability) (seen : List Path)
    (e : Entry) : Verdict :=
  match e.kind with
  | .literal => .ignore
  | .complex => .keep
  | .path p => if p ∈ seen then .duplicate else verdictOnPath req (e.stability classify) p

/-- The verdicts on a list of entries, given the paths declared before them. -/
def verdictsAfter (req : Requirements) (classify : BindingId → Stability) (seen : List Path) :
    List Entry → List Verdict
  | [] => []
  | e :: es =>
    verdict req classify seen e :: verdictsAfter req classify (seen ++ e.path?.toList) es

/-- The verdicts on a whole array. -/
def verdicts (req : Requirements) (classify : BindingId → Stability) (declared : List Entry) :
    List Verdict :=
  verdictsAfter req classify [] declared

/-- The entries with their verdicts, as a comparison has them. -/
abbrev judged (req : Requirements) (classify : BindingId → Stability) (es : List Entry) :
    List (Entry × Verdict) :=
  es.zip (verdicts req classify es)

/-- The paths of the entries whose verdict satisfies a test. -/
def pathsWhere (test : Verdict → Bool) (judged : List (Entry × Verdict)) : List Path :=
  (judged.filter fun (_, v) => test v).filterMap fun (e, _) => e.path?

/-- The positions of the entries whose verdict passes a test. -/
def positionsWhere (test : Verdict → Bool) (judged : List (Entry × Verdict)) : List Nat :=
  (judged.zipIdx.filter fun (x, _) => test x.2).map (·.2)

/-! ### The loop and the verdicts -/

section Loop

variable {req : Requirements} {classify : BindingId → Stability}

theorem length_verdictsAfter (seen : List Path) (es : List Entry) :
    (verdictsAfter req classify seen es).length = es.length := by
  induction es generalizing seen with
  | nil => rfl
  | cons e es ih => rw [verdictsAfter, List.length_cons, ih, List.length_cons]

theorem append_paths_cons (seen : List Path) (e : Entry) (es : List Entry) :
    seen ++ (e :: es).filterMap (·.path?) = (seen ++ e.path?.toList) ++ es.filterMap (·.path?) := by
  cases h : e.path? <;> simp [h]

theorem verdictsAfter_append (seen : List Path) (as bs : List Entry) :
    verdictsAfter req classify seen (as ++ bs) =
      verdictsAfter req classify seen as ++
        verdictsAfter req classify (seen ++ as.filterMap (·.path?)) bs := by
  induction as generalizing seen with
  | nil => simp [verdictsAfter]
  | cons a as ih =>
      rw [List.cons_append, verdictsAfter, ih, append_paths_cons, verdictsAfter, List.cons_append]

theorem length_judged (es : List Entry) : (judged req classify es).length = es.length := by
  rw [List.length_zip, verdicts, length_verdictsAfter, Nat.min_self]

theorem judged_concat (es : List Entry) (e : Entry) :
    judged req classify (es ++ [e]) =
      judged req classify es ++ [(e, verdict req classify (es.filterMap (·.path?)) e)] := by
  rw [judged, verdicts, verdictsAfter_append, List.zip_append (length_verdictsAfter [] es).symm]
  rfl

theorem pathsWhere_append (test : Verdict → Bool) (js ks : List (Entry × Verdict)) :
    pathsWhere test (js ++ ks) = pathsWhere test js ++ pathsWhere test ks := by
  rw [pathsWhere, List.filter_append, List.filterMap_append]
  rfl

theorem pathsWhere_singleton (test : Verdict → Bool) (e : Entry) (v : Verdict) :
    pathsWhere test [(e, v)] = if test v then e.path?.toList else [] := by
  by_cases htest : test v = true
  · cases hpath : e.path? <;> simp [pathsWhere, htest, hpath]
  · simp [pathsWhere, htest]

theorem positionsWhere_concat (test : Verdict → Bool) (js : List (Entry × Verdict)) (e : Entry)
    (v : Verdict) : positionsWhere test (js ++ [(e, v)]) =
      positionsWhere test js ++ if test v then [js.length] else [] := by
  by_cases htest : test v = true <;>
    simp [positionsWhere, List.zipIdx_append, List.filter_append, htest]

/-- What the verdicts on the entries amount to. -/
def Diff.ofVerdicts (judged : List (Entry × Verdict)) : Diff :=
  { unnecessary := pathsWhere Verdict.isUnnecessary judged
    duplicate := pathsWhere (· == .duplicate) judged
    kept := positionsWhere (· == .keep) judged
    outerScope := (pathsWhere (· == .outer) judged).head?
    mutableSlot := (pathsWhere (· == .mutable) judged).head? }

/-- What one more verdict adds. -/
theorem ofVerdicts_concat (js : List (Entry × Verdict)) (e : Entry) (v : Verdict) :
    Diff.ofVerdicts (js ++ [(e, v)]) =
      { Diff.ofVerdicts js with
        unnecessary := (Diff.ofVerdicts js).unnecessary ++
          if v.isUnnecessary then e.path?.toList else []
        duplicate := (Diff.ofVerdicts js).duplicate ++
          if v == .duplicate then e.path?.toList else []
        kept := (Diff.ofVerdicts js).kept ++ if v == .keep then [js.length] else []
        outerScope := (Diff.ofVerdicts js).outerScope.or (if v == .outer then e.path? else none)
        mutableSlot :=
          (Diff.ofVerdicts js).mutableSlot.or (if v == .mutable then e.path? else none) } := by
  have hhead : ∀ b : Bool,
      (if b then e.path?.toList else []).head? = if b then e.path? else none := by
    intro b
    cases b
    · rfl
    · exact Option.head?_toList
  simp only [Diff.ofVerdicts, pathsWhere_append, pathsWhere_singleton, positionsWhere_concat,
    List.head?_append, hhead]

/-- The first occurrence of a path is taken in as its verdict says. -/
theorem addFirst_ofVerdicts (js : List (Entry × Verdict)) {e : Entry} {p : Path}
    (hpath : e.path? = some p) (stability : Stability) :
    (Diff.ofVerdicts js).addFirst req stability p js.length =
      Diff.ofVerdicts (js ++ [(e, verdictOnPath req stability p)]) := by
  rw [ofVerdicts_concat, hpath, Diff.addFirst, verdictOnPath]
  by_cases hslot : p.isMutableSlot = true
  · simp [hslot, Diff.reject, Verdict.isUnnecessary]
  · by_cases hext : stability = .external
    · simp [hslot, hext, Diff.reject, Verdict.isUnnecessary]
    · by_cases hreactive : req.reactive.any p.covers = true
      · simp [hslot, hext, hreactive, Diff.keep, Verdict.isUnnecessary]
      · by_cases hstable :
            (stability.isStable && req.stable.any fun s => p.covers s || s.covers p) = true
        · simp [hslot, hext, hreactive, hstable, Diff.keep, Verdict.isUnnecessary]
        · simp [hslot, hext, hreactive, hstable, Diff.reject, Verdict.isUnnecessary]

/-- The loop has found what the verdicts amount to, and has seen the paths that are declared. -/
structure Scan.Follows (req : Requirements) (classify : BindingId → Stability) (s : Scan)
    (es : List Entry) : Prop where
  diff : s.diff = Diff.ofVerdicts (judged req classify es)
  mem_seen : ∀ p, p ∈ s.seen ↔ p ∈ es.filterMap (·.path?)

/-- An entry is taken in as its verdict says. -/
theorem Scan.Follows.add {s : Scan} {es : List Entry} (h : s.Follows req classify es) (e : Entry) :
    (s.add req classify (e, es.length)).Follows req classify (es ++ [e]) := by
  have hlength : (judged req classify es).length = es.length := length_judged es
  cases hkind : e.kind with
  | literal =>
      have hpath : e.path? = none := by rw [Entry.path?, hkind]
      have hadd : s.add req classify (e, es.length) = s := by simp only [Scan.add, hkind]
      rw [hadd]
      refine ⟨?_, by simpa [hpath] using h.mem_seen⟩
      rw [judged_concat, ofVerdicts_concat, verdict, hkind, hpath, h.diff]
      simp [Verdict.isUnnecessary]
  | complex =>
      have hpath : e.path? = none := by rw [Entry.path?, hkind]
      have hadd : s.add req classify (e, es.length) = { s with diff := s.diff.keep es.length } := by
        simp only [Scan.add, hkind]
      rw [hadd]
      refine ⟨?_, by simpa [hpath] using h.mem_seen⟩
      rw [judged_concat, ofVerdicts_concat, verdict, hkind, hpath, hlength, h.diff]
      simp [Diff.keep, Verdict.isUnnecessary]
  | path p =>
      have hpath : e.path? = some p := by rw [Entry.path?, hkind]
      by_cases hp : p ∈ s.seen
      · have hadd : s.add req classify (e, es.length) =
            { s with diff := { s.diff with duplicate := s.diff.duplicate ++ [p] } } := by
          simp only [Scan.add, hkind, if_pos hp]
        have hbefore := (h.mem_seen p).mp hp
        rw [hadd]
        refine ⟨?_, fun q => ?_⟩
        · rw [judged_concat, ofVerdicts_concat, verdict, hkind, hpath, h.diff]
          simp only [if_pos hbefore]
          simp [Verdict.isUnnecessary]
        · rw [List.filterMap_append, List.mem_append, List.filterMap_cons_some hpath,
            List.filterMap_nil, List.mem_singleton, h.mem_seen]
          exact ⟨Or.inl, fun hq => hq.elim id fun hqp => hqp ▸ hbefore⟩
      · have hadd : s.add req classify (e, es.length) =
            { diff := s.diff.addFirst req (e.stability classify) p es.length
              seen := s.seen ++ [p] } := by
          simp only [Scan.add, hkind, if_neg hp]
        have hnew : p ∉ es.filterMap (·.path?) := fun hmem => hp ((h.mem_seen p).mpr hmem)
        rw [hadd]
        refine ⟨?_, fun q => by simp [h.mem_seen, hpath]⟩
        rw [judged_concat, verdict, hkind, ← hlength, h.diff, addFirst_ofVerdicts _ hpath]
        simp only [if_neg hnew]

theorem follows_scan (es : List Entry) : (scan req classify es).Follows req classify es := by
  induction es using List.reverseRecOn with
  | nil => exact ⟨rfl, fun p => Iff.rfl⟩
  | append_singleton es e ih =>
      have hscan : scan req classify (es ++ [e]) =
          (scan req classify es).add req classify (e, es.length) := by
        simp [scan, List.zipIdx_append, List.foldl_append]
      rw [hscan]
      exact ih.add e

/-- A comparison gives the verdicts, and lists what no declared path covers. -/
theorem compare_eq (es : List Entry) : compare req es classify =
    { Diff.ofVerdicts (judged req classify es) with
      missing := outermostPaths (uncovered req.reactive (es.filterMap (·.path?))) } := by
  have hfollows : (scan req classify es).Follows req classify es := follows_scan es
  have huncovered : uncovered req.reactive (scan req classify es).seen =
      uncovered req.reactive (es.filterMap (·.path?)) := by
    refine List.filter_congr fun q _ => ?_
    rw [Bool.not_inj_iff, Bool.eq_iff_iff, List.any_eq_true, List.any_eq_true]
    simp only [hfollows.mem_seen]
  rw [compare, huncovered, hfollows.diff]

theorem missing_eq (es : List Entry) : (compare req es classify).missing =
    outermostPaths (uncovered req.reactive (es.filterMap (·.path?))) := by
  rw [compare_eq]

theorem kept_eq (es : List Entry) :
    (compare req es classify).kept = positionsWhere (· == .keep) (judged req classify es) := by
  rw [compare_eq, Diff.ofVerdicts]

theorem unnecessary_eq (es : List Entry) : (compare req es classify).unnecessary =
    pathsWhere Verdict.isUnnecessary (judged req classify es) := by
  rw [compare_eq, Diff.ofVerdicts]

theorem duplicate_eq (es : List Entry) : (compare req es classify).duplicate =
    pathsWhere (· == .duplicate) (judged req classify es) := by
  rw [compare_eq, Diff.ofVerdicts]

end Loop

/-! ### What is kept -/

theorem exists_of_forall₂ {α β : Type} {R : α → β → Prop} {as : List α} {bs : List β}
    (h : List.Forall₂ R as bs) {a : α} (ha : a ∈ as) : ∃ b ∈ bs, R a b := by
  induction h with
  | nil => contradiction
  | cons hab _ ih =>
      rcases List.mem_cons.mp ha with rfl | ha
      · exact ⟨_, List.mem_cons_self, hab⟩
      · obtain ⟨b, hb, hr⟩ := ih ha
        exact ⟨b, List.mem_cons_of_mem _ hb, hr⟩

theorem forall₂_imp_mem {α β : Type} {R S : α → β → Prop} {as : List α} {bs : List β}
    (h : List.Forall₂ R as bs) (hRS : ∀ a ∈ as, ∀ b, R a b → S a b) : List.Forall₂ S as bs := by
  induction h with
  | nil => exact .nil
  | cons hab _ ih =>
      exact .cons (hRS _ List.mem_cons_self _ hab)
        (ih fun a ha => hRS a (List.mem_cons_of_mem _ ha))

section Kept

variable {req : Requirements} {classify : BindingId → Stability}

/-- The entries that are kept, given the paths declared before them. -/
def survivors (req : Requirements) (classify : BindingId → Stability) (seen : List Path) :
    List Entry → List Entry
  | [] => []
  | e :: es =>
    if verdict req classify seen e = .keep then
      e :: survivors req classify (seen ++ e.path?.toList) es
    else survivors req classify (seen ++ e.path?.toList) es

theorem survivors_eq (seen : List Path) (es : List Entry) :
    survivors req classify seen es =
      ((es.zip (verdictsAfter req classify seen es)).filter fun p => p.2 == .keep).map (·.1) := by
  induction es generalizing seen with
  | nil => rfl
  | cons e es ih =>
      rw [survivors, verdictsAfter, List.zip_cons_cons, List.filter_cons, ih]
      by_cases h : verdict req classify seen e = .keep
      · rw [if_pos h, if_pos (by simpa using h), List.map_cons]
      · rw [if_neg h, if_neg (by simpa using h)]

/-- The positions a comparison keeps are those of the entries it keeps. -/
theorem filterMap_kept (es : List Entry) :
    (compare req es classify).kept.filterMap (es[·]?) = survivors req classify [] es := by
  have hget : ∀ x ∈ (judged req classify es).zipIdx, es[x.2]? = some x.1.1 := by
    rintro ⟨⟨e, v⟩, i⟩ hx
    have hi := List.mem_zipIdx_iff_getElem?.mp hx
    exact (List.getElem?_zip_eq_some.mp hi).1
  calc (compare req es classify).kept.filterMap (es[·]?)
      = ((judged req classify es).zipIdx.filter fun x => x.1.2 == .keep).filterMap
          (fun x => es[x.2]?) := by
        rw [kept_eq, positionsWhere, List.filterMap_map]
        rfl
    _ = ((judged req classify es).zipIdx.filter fun x => x.1.2 == .keep).map (·.1.1) := by
        rw [← List.filterMap_eq_map]
        exact List.filterMap_congr fun x hx => hget x (List.mem_filter.mp hx).1
    _ = survivors req classify [] es := by
        rw [survivors_eq, ← verdicts, ← judged, ← List.zipIdx_map_fst 0 (judged req classify es),
          List.filter_map, List.map_map, List.zipIdx_map_fst]
        rfl

/-- Entries that are kept are kept again where fewer paths stand before them. -/
theorem verdicts_survivors (es : List Entry) : ∀ {seen seen' : List Path}, seen' ⊆ seen →
    ∀ v ∈ verdictsAfter req classify seen' (survivors req classify seen es), v = .keep := by
  induction es with
  | nil => intro seen seen' _ v hv; contradiction
  | cons e es ih =>
      intro seen seen' hsub v hv
      have hsub' : seen' ++ e.path?.toList ⊆ seen ++ e.path?.toList :=
        List.append_subset.mpr ⟨List.Subset.trans hsub (List.subset_append_left _ _),
          List.subset_append_right _ _⟩
      rw [survivors] at hv
      split at hv
      · rename_i hkeep
        rw [verdictsAfter] at hv
        rcases List.mem_cons.mp hv with rfl | hv
        · unfold verdict at hkeep ⊢
          split at hkeep
          · contradiction
          · rfl
          · split at hkeep
            · contradiction
            · rename_i p _ hp
              rw [if_neg fun h => hp (hsub h)]
              exact hkeep
        · exact ih hsub' v hv
      · exact ih (List.Subset.trans hsub (List.subset_append_left _ _)) v hv

theorem kind_of_path? {e : Entry} {p : Path} (h : e.path? = some p) : e.kind = .path p := by
  unfold Entry.path? at h
  split at h
  · rename_i q hq
    injection h with h
    rw [hq, h]
  · contradiction

/-- An entry with a path is a duplicate, or judged by its path. -/
theorem verdict_of_path? {e : Entry} {p : Path} (h : e.path? = some p) (seen : List Path) :
    verdict req classify seen e =
      if p ∈ seen then .duplicate else verdictOnPath req (e.stability classify) p := by
  rw [verdict, kind_of_path? h]

/-- Of the entries with a path the first is judged by itself. -/
theorem exists_survivor {d : Path} (es : List Entry)
    (hkeep : ∀ e ∈ es, e.path? = some d → verdictOnPath req (e.stability classify) d = .keep) :
    ∀ seen : List Path, d ∉ seen → (∃ e ∈ es, e.path? = some d) →
      ∃ e ∈ survivors req classify seen es, e.path? = some d := by
  induction es with
  | nil => rintro seen _ ⟨e, he, -⟩; contradiction
  | cons e es ih =>
      intro seen hd hex
      have hrest := ih fun e' he' => hkeep e' (List.mem_cons_of_mem _ he')
      rw [survivors]
      by_cases hpath : e.path? = some d
      · have hverdict : verdict req classify seen e = .keep := by
          rw [verdict_of_path? hpath, if_neg hd]
          exact hkeep e List.mem_cons_self hpath
        rw [if_pos hverdict]
        exact ⟨e, List.mem_cons_self, hpath⟩
      · have hd' : d ∉ seen ++ e.path?.toList := by
          rw [List.mem_append, not_or]
          exact ⟨hd, fun h => hpath (Option.mem_toList.mp h)⟩
        obtain ⟨e', he', hpath'⟩ := hex
        have hmem : e' ∈ es := by
          rcases List.mem_cons.mp he' with rfl | h
          · exact absurd hpath' hpath
          · exact h
        obtain ⟨k, hk, hkpath⟩ := hrest _ hd' ⟨e', hmem, hpath'⟩
        split
        · exact ⟨k, List.mem_cons_of_mem _ hk, hkpath⟩
        · exact ⟨k, hk, hkpath⟩

/-- A path that covers a requirement is kept, unless it is a mutable slot or comes from outside. -/
theorem verdictOnPath_of_covers {stability : Stability} {p q : Path} (hslot : p.isMutableSlot = false)
    (hext : stability ≠ .external) (hq : q ∈ req.reactive) (hcov : p.covers q = true) :
    verdictOnPath req stability p = .keep := by
  rw [verdictOnPath, if_neg (by simp [hslot]), if_neg hext,
    if_pos (List.any_eq_true.mpr ⟨q, hq, hcov⟩)]

/-- An entry for a required path, from inside the render function. -/
def IsEntryFor (classify : BindingId → Stability) (p : Path) (e : Entry) : Prop :=
  e.kind = .path p ∧ p.isMutableSlot = false ∧ e.stability classify ≠ .external

/-- Entries for requirements that stand nowhere before are kept, one by one. -/
theorem verdicts_added {missing : List Path} {added : List Entry} (hnodup : missing.Nodup)
    (hreq : ∀ p ∈ missing, p ∈ req.reactive)
    (hadded : List.Forall₂ (IsEntryFor classify) missing added) :
    ∀ {seen : List Path}, (∀ p ∈ missing, p ∉ seen) →
      ∀ v ∈ verdictsAfter req classify seen added, v = .keep := by
  induction hadded with
  | nil => intro seen _ v hv; contradiction
  | @cons p e ps es hp _ ih =>
      intro seen hseen v hv
      obtain ⟨hkind, hslot, hext⟩ := hp
      obtain ⟨hps, hnodup⟩ := List.nodup_cons.mp hnodup
      have hpath : e.path? = some p := by rw [Entry.path?, hkind]
      rw [verdictsAfter, hpath] at hv
      rcases List.mem_cons.mp hv with rfl | hv
      · rw [verdict_of_path? hpath, if_neg (hseen p List.mem_cons_self)]
        exact verdictOnPath_of_covers hslot hext (hreq p List.mem_cons_self) p.covers_refl
      · refine ih hnodup (fun q hq => hreq q (List.mem_cons_of_mem _ hq)) (fun q hq hmem => ?_) v hv
        rcases List.mem_append.mp hmem with h | h
        · exact hseen q (List.mem_cons_of_mem _ hq) h
        · have hqp : q = p := by simpa using h
          exact hps (hqp ▸ hq)

/-! ### Clean comparisons -/

/-- A comparison that keeps everything and covers everything is clean. -/
theorem clean_of_keep {es : List Entry} (hkeep : ∀ v ∈ verdicts req classify es, v = .keep)
    (hcovered : ∀ q ∈ req.reactive, ∃ d ∈ es.filterMap (·.path?), d.covers q = true) :
    (compare req es classify).isClean = true ∧
      (compare req es classify).kept = List.range es.length := by
  have hjudged : ∀ p ∈ judged req classify es, p.2 = .keep :=
    fun p hp => hkeep p.2 (List.of_mem_zip hp).2
  have hnone : ∀ test : Verdict → Bool, test .keep = false →
      pathsWhere test (judged req classify es) = [] := by
    intro test htest
    have hfilter : (judged req classify es).filter (fun p => test p.2) = [] := by
      rw [List.filter_eq_nil_iff]
      intro p hp
      rw [hjudged p hp, htest]
      exact Bool.false_ne_true
    rw [pathsWhere, hfilter]
    rfl
  have huncovered : uncovered req.reactive (es.filterMap (·.path?)) = [] := by
    rw [List.eq_nil_iff_forall_not_mem]
    intro q hq
    obtain ⟨hreq, hnot⟩ := mem_uncovered.mp hq
    obtain ⟨d, hd, hcov⟩ := hcovered q hreq
    rw [hnot d hd] at hcov
    contradiction
  constructor
  · have hunnecessary := hnone Verdict.isUnnecessary rfl
    have hduplicate := hnone (· == .duplicate) rfl
    rw [Diff.isClean, missing_eq, unnecessary_eq, duplicate_eq, huncovered, hunnecessary, hduplicate]
    rfl
  · have hall : (judged req classify es).zipIdx.filter (fun x => x.1.2 == .keep) =
        (judged req classify es).zipIdx := by
      rw [List.filter_eq_self]
      rintro ⟨p, i⟩ hx
      have hp : p ∈ judged req classify es := (List.mem_zipIdx' hx).2 ▸ List.getElem_mem _
      simpa using hjudged p hp
    rw [kept_eq, positionsWhere, hall, List.zipIdx_map_snd, length_judged, List.range_eq_range']

theorem mem_missing {es : List Entry} {p : Path} (h : p ∈ (compare req es classify).missing) :
    p ∈ req.reactive ∧ ∀ d ∈ es.filterMap (·.path?), d.covers p = false :=
  mem_uncovered.mp (mem_outermostPaths.mp (missing_eq es ▸ h)).1

theorem survivors_subset (es : List Entry) : ∀ seen, survivors req classify seen es ⊆ es := by
  intro seen
  rw [survivors_eq]
  intro e he
  obtain ⟨⟨e', v⟩, hmem, rfl⟩ := List.mem_map.mp he
  exact (List.of_mem_zip (List.mem_filter.mp hmem).1).1

/-- Keeping what is kept and adding what is missing settles a comparison, where no requirement
hangs on an entry that is thrown out. -/
theorem compare_settles {es added : List Entry} (hnodup : req.reactive.Nodup)
    (hgood : ∀ e ∈ es, ∀ d q, e.path? = some d → q ∈ req.reactive → d.covers q = true →
      d.isMutableSlot = false ∧ e.stability classify ≠ .external)
    (hadded : List.Forall₂ (IsEntryFor classify) (compare req es classify).missing added) :
    let settled := (compare req es classify).kept.filterMap (es[·]?) ++ added
    (compare req settled classify).isClean = true ∧
      (compare req settled classify).kept = List.range settled.length := by
  rw [filterMap_kept]
  refine clean_of_keep ?_ fun q hq => ?_
  · -- Each kept entry is kept again, and no path that is added stands before it.
    intro v hv
    rw [verdicts, verdictsAfter_append] at hv
    rcases List.mem_append.mp hv with hv | hv
    · exact verdicts_survivors es (List.Subset.refl []) v hv
    · have hmissing : (compare req es classify).missing.Nodup :=
        missing_eq es ▸ (hnodup.filter _).filter _
      refine verdicts_added hmissing (fun p hp => (mem_missing hp).1) hadded
        (fun p hp hmem => ?_) v hv
      obtain ⟨e, he, hpath⟩ := List.mem_filterMap.mp hmem
      have hdeclared : p ∈ es.filterMap (·.path?) :=
        List.mem_filterMap.mpr ⟨e, survivors_subset es [] he, hpath⟩
      have := (mem_missing hp).2 p hdeclared
      rw [p.covers_refl] at this
      contradiction
  · rw [List.filterMap_append]
    by_cases hdeclared : ∃ d ∈ es.filterMap (·.path?), d.covers q = true
    · -- A declared path that covers a requirement survives at its first occurrence.
      obtain ⟨d, hd, hcov⟩ := hdeclared
      obtain ⟨e, he, hpath⟩ := List.mem_filterMap.mp hd
      have hkeep : ∀ e ∈ es, e.path? = some d →
          verdictOnPath req (e.stability classify) d = .keep := by
        intro e he hpath
        obtain ⟨hslot, hext⟩ := hgood e he d q hpath hq hcov
        exact verdictOnPath_of_covers hslot hext hq hcov
      obtain ⟨k, hk, hkpath⟩ := exists_survivor es hkeep [] List.not_mem_nil ⟨e, he, hpath⟩
      exact ⟨d, List.mem_append_left _ (List.mem_filterMap.mpr ⟨k, hk, hkpath⟩), hcov⟩
    · -- A requirement that none covers is covered by one of the paths that are added.
      have huncovered : q ∈ uncovered req.reactive (es.filterMap (·.path?)) := by
        refine mem_uncovered.mpr ⟨hq, fun d hd => ?_⟩
        by_contra hcov
        exact hdeclared ⟨d, hd, by simpa using hcov⟩
      obtain ⟨m, hm, hcov⟩ := exists_outermost_covers _ q rfl huncovered
      obtain ⟨e, he, hkind, -⟩ := exists_of_forall₂ hadded (missing_eq es ▸ hm)
      refine ⟨m, List.mem_append_right _ (List.mem_filterMap.mpr ⟨e, he, ?_⟩), hcov⟩
      rw [Entry.path?, hkind]

end Kept

end HookLint.Dependency
