/-
When a dependency array is as it should be, and what it lacks.

A comparison judges the entries one after another, and what it says of one depends on
the paths that stand before it: `mem_judged` gives every verdict with the entries before
the judged one.  So nothing is duplicate or unnecessary exactly when no path stands twice
and every path is of use by itself (`isClean_compare_iff`).

What is missing is found in two steps, first the requirements that nothing covers, then
those of them that no other covers.  Whatever the second step drops is still covered,
because going from a path to one that covers it shortens the path
(`exists_outermost_covers`), and by one path only, because the paths that cover one path
are a chain.

The last part looks at all findings on a call: only a comparison that is not clean gives
a finding on the array as a whole, and it gives one.
-/
import HookLint.Dependency.Analysis
import HookLint.Proofs.Settled

namespace HookLint.Dependency

open HookLint.Syntax HookLint.Scope

variable {req : Requirements} {classify : BindingId → Stability} {es : List Entry}

/-! ### Verdicts and the paths before them -/

/-- A verdict is given on an entry after the paths of the entries before it. -/
theorem mem_judged {e : Entry} {v : Verdict} : ∀ {es : List Entry} {seen : List Path},
    (e, v) ∈ es.zip (verdictsAfter req classify seen es) ↔
      ∃ before after, es = before ++ e :: after ∧
        verdict req classify (seen ++ before.filterMap (·.path?)) e = v := by
  intro es
  induction es with
  | nil =>
      intro seen
      simp [verdictsAfter]
  | cons a as ih =>
      intro seen
      rw [verdictsAfter, List.zip_cons_cons, List.mem_cons, ih]
      constructor
      · rintro (h | ⟨before, after, rfl, hv⟩)
        · obtain ⟨rfl, rfl⟩ := Prod.mk.inj h
          exact ⟨[], as, rfl, by simp⟩
        · exact ⟨a :: before, after, rfl, by rw [append_paths_cons]; exact hv⟩
      · rintro ⟨before, after, hes, hv⟩
        cases before with
        | nil =>
            obtain ⟨rfl, rfl⟩ := List.cons.inj hes
            exact Or.inl (by simpa using hv.symm)
        | cons b before =>
            obtain ⟨rfl, rfl⟩ := List.cons.inj hes
            exact Or.inr ⟨before, after, rfl, by rw [append_paths_cons] at hv; exact hv⟩

/-- No verdict passes a test exactly when none does that is given on a path. -/
theorem pathsWhere_eq_nil_iff (test : Verdict → Bool) :
    pathsWhere test (judged req classify es) = [] ↔
      ∀ before e after p, es = before ++ e :: after → e.path? = some p →
        test (verdict req classify (before.filterMap (·.path?)) e) = false := by
  unfold pathsWhere judged verdicts
  rw [List.filterMap_eq_nil_iff]
  constructor
  · intro h before e after p hes hpath
    by_contra htest
    have hmem : (e, verdict req classify (before.filterMap (·.path?)) e) ∈
        es.zip (verdictsAfter req classify [] es) :=
      mem_judged.mpr ⟨before, after, hes, rfl⟩
    have hnone : e.path? = none := h (e, _) (List.mem_filter.mpr ⟨hmem, by simpa using htest⟩)
    rw [hpath] at hnone
    contradiction
  · rintro h ⟨e, v⟩ hmem
    obtain ⟨hjudged, htest⟩ := List.mem_filter.mp hmem
    obtain ⟨before, after, hes, rfl⟩ := mem_judged.mp hjudged
    cases hpath : e.path? with
    | none => exact hpath
    | some p =>
        have hfalse := h before e after p hes hpath
        simp only [List.nil_append, hfalse] at htest
        contradiction

/-- Paths are declared once each when none stands before an entry that declares it. -/
theorem nodup_paths_iff : (es.filterMap (·.path?)).Nodup ↔
    ∀ before e after p, es = before ++ e :: after → e.path? = some p →
      p ∉ before.filterMap (·.path?) := by
  constructor
  · rintro hnodup before e after p rfl hpath hmem
    rw [List.filterMap_append, List.nodup_append] at hnodup
    refine hnodup.2.2 p hmem p ?_ rfl
    rw [List.filterMap_cons_some hpath]
    exact List.mem_cons_self
  · intro h
    -- Entries are added at the end, where the paths before them are all the others.
    induction es using List.reverseRecOn with
    | nil => exact List.nodup_nil
    | append_singleton es e ih =>
        rw [List.filterMap_append, List.nodup_append]
        refine ⟨ih ?_, ?_, ?_⟩
        · intro before e' after p hes hpath
          refine h before e' (after ++ [e]) p ?_ hpath
          rw [hes, List.append_assoc, List.cons_append]
        · cases hpath : e.path? <;> simp [hpath]
        · intro p hp q hq hpq
          obtain ⟨e', he', hpath⟩ := List.mem_filterMap.mp hq
          rw [List.mem_singleton.mp he'] at hpath
          exact h es e [] q rfl hpath (hpq ▸ hp)

/-! ### Paths that are of use -/

/-- Some entry declares a path that covers `q`. -/
def IsCovered (es : List Entry) (q : Path) : Prop :=
  ∃ e ∈ es, ∃ p, e.path? = some p ∧ p.covers q = true

/-- The path an entry declares is of use: it is no mutable slot, starts inside the render
function, and covers a requirement, or starts at a stable value and covers a stable path that is
read or is covered by one. -/
structure Warranted (req : Requirements) (classify : BindingId → Stability) (e : Entry) (p : Path) :
    Prop where
  slot : p.isMutableSlot = false
  inside : ∃ b, e.root = some b ∧ classify b ≠ .external
  used : (∃ q ∈ req.reactive, p.covers q = true) ∨
    (∃ b, e.root = some b ∧ (classify b).isStable = true) ∧
      ∃ q ∈ req.stable, p.covers q = true ∨ q.covers p = true

/-- An array is as it should be: no path stands twice, every path is of use, and everything that
is required is covered. -/
structure Exact (req : Requirements) (classify : BindingId → Stability) (es : List Entry) : Prop where
  distinct : (es.filterMap (·.path?)).Nodup
  warranted : ∀ e ∈ es, ∀ p, e.path? = some p → Warranted req classify e p
  covered : ∀ q ∈ req.reactive, IsCovered es q

theorem verdictOnPath_keep_or_unnecessary (stability : Stability) (p : Path) :
    verdictOnPath req stability p = .keep ∨
      (verdictOnPath req stability p).isUnnecessary = true := by
  unfold verdictOnPath
  split_ifs <;> simp [Verdict.isUnnecessary]

theorem verdictOnPath_eq_keep_iff {stability : Stability} {p : Path} :
    verdictOnPath req stability p = .keep ↔
      p.isMutableSlot = false ∧ stability ≠ .external ∧
        ((∃ q ∈ req.reactive, p.covers q = true) ∨
          stability.isStable = true ∧ ∃ q ∈ req.stable, p.covers q = true ∨ q.covers p = true) := by
  have hreactive : (∃ q ∈ req.reactive, p.covers q = true) ↔ req.reactive.any p.covers = true :=
    List.any_eq_true.symm
  have hstable : (stability.isStable = true ∧
      ∃ q ∈ req.stable, p.covers q = true ∨ q.covers p = true) ↔
      (stability.isStable && req.stable.any fun s => p.covers s || s.covers p) = true := by
    simp only [Bool.and_eq_true, List.any_eq_true, Bool.or_eq_true]
  rw [hreactive, hstable, verdictOnPath]
  by_cases hslot : p.isMutableSlot = true
  · simp [hslot]
  by_cases hext : stability = .external
  · simp [hslot, hext]
  rw [if_neg hslot, if_neg hext]
  by_cases hcovers : req.reactive.any p.covers = true
  · rw [if_pos hcovers]
    exact ⟨fun _ => ⟨by simpa using hslot, hext, Or.inl hcovers⟩, fun _ => rfl⟩
  · rw [if_neg hcovers]
    split_ifs with hallowed
    · simp [hslot, hext, hallowed]
    · simp [hcovers, hallowed]

theorem stability_eq {e : Entry} {b : BindingId} (h : e.root = some b) :
    e.stability classify = classify b := by
  rw [Entry.stability, h]

theorem warranted_iff {e : Entry} {p : Path} :
    Warranted req classify e p ↔ verdictOnPath req (e.stability classify) p = .keep := by
  rw [verdictOnPath_eq_keep_iff]
  cases hroot : e.root with
  | none =>
      have hext : e.stability classify = .external := by rw [Entry.stability, hroot]
      constructor
      · rintro ⟨-, ⟨b, hb, -⟩, -⟩
        rw [hroot] at hb
        contradiction
      · rintro ⟨-, hne, -⟩
        exact absurd hext hne
  | some b =>
      rw [stability_eq hroot]
      constructor
      · rintro ⟨hslot, ⟨b', hb', hne⟩, hused⟩
        obtain rfl : b = b' := Option.some.inj (hroot.symm.trans hb')
        refine ⟨hslot, hne, hused.imp_right ?_⟩
        rintro ⟨⟨c, hc, hstable⟩, hread⟩
        obtain rfl : b = c := Option.some.inj (hroot.symm.trans hc)
        exact ⟨hstable, hread⟩
      · rintro ⟨hslot, hne, hused⟩
        exact ⟨hslot, ⟨b, hroot, hne⟩, hused.imp_right fun h => ⟨⟨b, hroot, h.1⟩, h.2⟩⟩

/-! ### What is missing -/

theorem isCovered_iff {q : Path} :
    IsCovered es q ↔ ∃ d ∈ es.filterMap (·.path?), d.covers q = true := by
  constructor
  · rintro ⟨e, he, p, hpath, hcov⟩
    exact ⟨p, List.mem_filterMap.mpr ⟨e, he, hpath⟩, hcov⟩
  · rintro ⟨p, hp, hcov⟩
    obtain ⟨e, he, hpath⟩ := List.mem_filterMap.mp hp
    exact ⟨e, he, p, hpath, hcov⟩

/-- A requirement that no entry covers is covered by a path that is missing. -/
theorem exists_missing_covers (classify : BindingId → Stability) {q : Path} (hq : q ∈ req.reactive)
    (hnot : ¬ IsCovered es q) : ∃ m ∈ (compare req es classify).missing, m.covers q = true := by
  have huncovered : q ∈ uncovered req.reactive (es.filterMap (·.path?)) := by
    refine mem_uncovered.mpr ⟨hq, fun d hd => ?_⟩
    by_contra hcov
    exact hnot (isCovered_iff.mpr ⟨d, hd, by simpa using hcov⟩)
  rw [missing_eq]
  exact exists_outermost_covers _ q rfl huncovered

theorem not_isCovered_of_mem_missing {m : Path} (hm : m ∈ (compare req es classify).missing) :
    ¬ IsCovered es m := by
  intro hcov
  obtain ⟨d, hd, hcov⟩ := isCovered_iff.mp hcov
  rw [(mem_missing hm).2 d hd] at hcov
  contradiction

/-- Of the missing paths none covers another. -/
theorem eq_of_missing_covers {m n : Path} (hm : m ∈ (compare req es classify).missing)
    (hn : n ∈ (compare req es classify).missing) (hcov : m.covers n = true) : m = n := by
  rw [missing_eq] at hm hn
  by_contra hne
  have hfalse := (mem_outermostPaths.mp hn).2 m (mem_outermostPaths.mp hm).1 hne
  rw [hcov] at hfalse
  contradiction

theorem missing_eq_nil_iff :
    (compare req es classify).missing = [] ↔ ∀ q ∈ req.reactive, IsCovered es q := by
  constructor
  · intro hnil q hq
    by_contra hnot
    obtain ⟨m, hm, -⟩ := exists_missing_covers classify hq hnot
    rw [hnil] at hm
    contradiction
  · intro hall
    refine List.eq_nil_iff_forall_not_mem.mpr fun m hm => ?_
    exact not_isCovered_of_mem_missing hm (hall m (mem_missing hm).1)

/-- The missing paths are the least that completes an array.  They stand in the order of the
requirements, are pairwise incomparable and covered by no entry, and a requirement that no entry
covers is covered by exactly one of them. -/
theorem missing_completes (hnodup : req.reactive.Nodup) (es : List Entry)
    (classify : BindingId → Stability) :
    (compare req es classify).missing.Sublist req.reactive ∧
    (compare req es classify).missing.Pairwise
      (fun m n => m.covers n = false ∧ n.covers m = false) ∧
    (∀ m ∈ (compare req es classify).missing, ¬ IsCovered es m) ∧
    ∀ q ∈ req.reactive,
      IsCovered es q ∨ ∃! m, m ∈ (compare req es classify).missing ∧ m.covers q = true := by
  have hsub : (compare req es classify).missing.Sublist req.reactive := by
    rw [missing_eq]
    exact List.filter_sublist.trans List.filter_sublist
  refine ⟨hsub, ?_, fun m => not_isCovered_of_mem_missing, ?_⟩
  · refine (hnodup.sublist hsub).pairwise_of_forall_ne fun m hm n hn hne => ⟨?_, ?_⟩
    · by_contra hcov
      exact hne (eq_of_missing_covers hm hn (by simpa using hcov))
    · by_contra hcov
      exact hne (eq_of_missing_covers hn hm (by simpa using hcov)).symm
  · intro q hq
    by_cases hcovered : IsCovered es q
    · exact Or.inl hcovered
    obtain ⟨m, hm, hmq⟩ := exists_missing_covers classify hq hcovered
    refine Or.inr ⟨m, ⟨hm, hmq⟩, ?_⟩
    rintro n ⟨hn, hnq⟩
    rcases Path.covers_or_covers hnq hmq with hcov | hcov
    · exact eq_of_missing_covers hn hm hcov
    · exact (eq_of_missing_covers hm hn hcov).symm

/-- Requirements that cover one another in both orders. -/
def chainedRequirements : Requirements :=
  { reactive := [⟨"a.b.c"⟩, ⟨"x.y"⟩, ⟨"a.b"⟩, ⟨"a.b.c.d"⟩, ⟨"x"⟩], stable := [] }

/-- The entry `x.y`, of the first binding. -/
def plainEntry : Entry :=
  { site := .root (.node ⟨0, "identifier", .identifier, true, false, [], 0, 3⟩ []), text := "x.y"
    kind := .path ⟨"x.y"⟩, root := some 0 }

theorem missing_completes_chained :
    chainedRequirements.reactive.Nodup ∧
    (compare chainedRequirements [plainEntry] fun _ => .reactive).missing = [⟨"a.b"⟩, ⟨"x"⟩] ∧
    (IsCovered [plainEntry] ⟨"a.b.c.d"⟩ ∨
      ∃! m, m ∈ (compare chainedRequirements [plainEntry] fun _ => .reactive).missing ∧
        m.covers ⟨"a.b.c.d"⟩ = true) := by
  have hnodup : chainedRequirements.reactive.Nodup := by decide
  obtain ⟨-, -, -, hcovers⟩ := missing_completes hnodup [plainEntry] fun _ => .reactive
  exact ⟨hnodup, by decide, hcovers ⟨"a.b.c.d"⟩ (by decide)⟩

/-! ### Clean comparisons -/

theorem isClean_iff {d : Diff} :
    d.isClean = true ↔ d.missing = [] ∧ d.unnecessary = [] ∧ d.duplicate = [] := by
  simp [Diff.isClean, and_assoc]

/-- A comparison is clean exactly when the array is as it should be. -/
theorem isClean_compare_iff :
    (compare req es classify).isClean = true ↔ Exact req classify es := by
  rw [isClean_iff, missing_eq_nil_iff, unnecessary_eq, duplicate_eq, pathsWhere_eq_nil_iff,
    pathsWhere_eq_nil_iff]
  constructor
  · rintro ⟨hcovered, hnecessary, hsingle⟩
    have hfirst : ∀ before e after p, es = before ++ e :: after → e.path? = some p →
        p ∉ before.filterMap (·.path?) := by
      intro before e after p hes hpath hmem
      have hverdict := hsingle before e after p hes hpath
      rw [verdict_of_path? hpath, if_pos hmem] at hverdict
      contradiction
    refine ⟨nodup_paths_iff.mpr hfirst, ?_, hcovered⟩
    intro e he p hpath
    obtain ⟨before, after, hes⟩ := List.append_of_mem he
    have hverdict := hnecessary before e after p hes hpath
    rw [verdict_of_path? hpath, if_neg (hfirst before e after p hes hpath)] at hverdict
    refine warranted_iff.mpr ((verdictOnPath_keep_or_unnecessary _ p).resolve_right ?_)
    rw [hverdict]
    exact Bool.false_ne_true
  · rintro ⟨hdistinct, hwarranted, hcovered⟩
    have hkeep : ∀ before e after p, es = before ++ e :: after → e.path? = some p →
        verdict req classify (before.filterMap (·.path?)) e = .keep := by
      intro before e after p hes hpath
      have he : e ∈ es := by rw [hes]; simp
      rw [verdict_of_path? hpath, if_neg (nodup_paths_iff.mp hdistinct before e after p hes hpath)]
      exact warranted_iff.mp (hwarranted e he p hpath)
    refine ⟨hcovered, ?_, ?_⟩
    · intro before e after p hes hpath
      rw [hkeep before e after p hes hpath]
      rfl
    · intro before e after p hes hpath
      rw [hkeep before e after p hes hpath]
      rfl

/-- There is nothing to say about a clean comparison, and only about that. -/
theorem mismatch?_eq_none_iff {hook : String} {d : Diff} :
    Message.mismatch? hook d = none ↔ d.isClean = true := by
  rw [Message.mismatch?, Option.map_eq_none_iff, isClean_iff, Message.faultOf?]
  by_cases hmissing : d.missing = []
  · by_cases hunnecessary : d.unnecessary = []
    · by_cases hduplicate : d.duplicate = []
      · simp [hmissing, hunnecessary, hduplicate]
      · simp [hmissing, hunnecessary, hduplicate]
    · simp [hmissing, hunnecessary]
  · simp [hmissing]

/-! ### All findings on a call -/

/-- A finding that is not about an array as a whole, and suggests nothing. -/
def IsRemark (d : Diagnostic) : Prop := d.kind ≠ .dependencyMismatch ∧ d.suggestion = none

namespace Subject

variable {s : Subject} {d : Diagnostic}

theorem isRemark_finding {kind : DiagnosticKind} (hkind : kind ≠ .dependencyMismatch)
    (message : String) (site : Site) : IsRemark (s.finding kind message site) :=
  ⟨hkind, rfl⟩

theorem isRemark_of_mem_asyncEffect (h : d ∈ s.asyncEffect) : IsRemark d := by
  unfold asyncEffect at h
  split at h
  · rw [List.mem_singleton.mp h]
    exact isRemark_finding (by simp) _ _
  · contradiction

theorem isRemark_of_mem_staleAssignments (h : d ∈ s.staleAssignments) : IsRemark d := by
  obtain ⟨w, -, rfl⟩ := List.mem_map.mp h
  exact isRemark_finding (by simp) _ _

theorem isRemark_of_mem_literals {entries : List Entry} (h : d ∈ s.literals entries) :
    IsRemark d := by
  obtain ⟨e, -, rfl⟩ := List.mem_map.mp h
  exact isRemark_finding (by simp) _ _

theorem isRemark_of_mem_firstComplex {entries : List Entry} (h : d ∈ s.firstComplex entries) :
    IsRemark d := by
  obtain ⟨e, -, rfl⟩ := Option.map_eq_some_iff.mp (Option.mem_toList.mp h)
  exact isRemark_finding (by simp) _ _

theorem isRemark_of_construction? {array : Site} {e : Entry} (h : s.construction? array e = some d) :
    IsRemark d := by
  simp only [construction?, Option.bind_eq_bind, Option.bind_eq_some_iff, Option.guard_eq_some',
    Option.pure_def, Option.some.injEq] at h
  obtain ⟨path, -, id, -, -, -, b, -, kind, -, rfl⟩ := h
  exact isRemark_finding (by simp) _ _

theorem filter_of_isRemark {ds : List Diagnostic} (h : ∀ d ∈ ds, IsRemark d) :
    ds.filter (·.kind == .dependencyMismatch) = [] := by
  rw [List.filter_eq_nil_iff]
  intro d hd
  simpa using (h d hd).1

/-- Before an array is judged as a whole there are only remarks. -/
theorem filter_check {deps array : Site} {entries : List Entry}
    (hdeps : s.call.dependencies = some deps)
    (hdecl : Declared.ofSite s.graph s.source deps = .array array entries) :
    s.check.filter (·.kind == .dependencyMismatch) =
      (s.judgement array entries).filter (·.kind == .dependencyMismatch) := by
  have hcheck : s.check = s.asyncEffect ++ s.staleAssignments ++
      (s.literals entries ++ s.firstComplex entries ++ s.judgement array entries) := by
    unfold check
    rw [hdeps]
    show _ ++ s.onDependencies deps = _
    unfold onDependencies
    rw [hdecl]
  have hcall : ∀ d ∈ s.asyncEffect ++ s.staleAssignments, IsRemark d := by
    intro d hd
    rcases List.mem_append.mp hd with hd | hd
    · exact isRemark_of_mem_asyncEffect hd
    · exact isRemark_of_mem_staleAssignments hd
  have hentries : ∀ d ∈ s.literals entries ++ s.firstComplex entries, IsRemark d := by
    intro d hd
    rcases List.mem_append.mp hd with hd | hd
    · exact isRemark_of_mem_literals hd
    · exact isRemark_of_mem_firstComplex hd
  rw [hcheck, List.filter_append, filter_of_isRemark hcall, List.filter_append,
    filter_of_isRemark hentries]
  rfl

/-- An array is judged by one finding on the whole of it, or by remarks. -/
theorem judgement_cases (s : Subject) (array : Site) (entries : List Entry) :
    (s.diff entries).isClean = true ∧ (∀ d ∈ s.judgement array entries, IsRemark d) ∨
      (s.diff entries).isClean = false ∧ ∃ message,
        Message.mismatch? s.call.display (s.diff entries) = some message ∧
        s.judgement array entries = [s.mismatch array entries (s.diff entries) message] := by
  unfold judgement
  dsimp only
  cases hclean : (s.diff entries).isClean with
  | true =>
      refine Or.inl ⟨rfl, fun d hd => ?_⟩
      obtain ⟨e, -, he⟩ := List.mem_filterMap.mp hd
      exact isRemark_of_construction? he
  | false =>
      cases hmessage : Message.mismatch? s.call.display (s.diff entries) with
      | none =>
          -- Only a clean comparison is left without a message.
          rw [mismatch?_eq_none_iff.mp hmessage] at hclean
          contradiction
      | some message => exact Or.inr ⟨rfl, message, rfl, rfl⟩

end Subject

/-- A call is reported exactly when its array is wrong.  A comparison is clean when the array is as
it should be, there is a message unless it is clean, and the findings on a call hold exactly one on
the array as a whole when the comparison is not clean, and none when it is. -/
theorem mismatch_reported_iff :
    (∀ (req : Requirements) (es : List Entry) (classify : BindingId → Stability),
      (compare req es classify).isClean = true ↔ Exact req classify es) ∧
    (∀ (hook : String) (d : Diff), Message.mismatch? hook d = none ↔ d.isClean = true) ∧
    ∀ (s : Subject) (deps array : Site) (entries : List Entry),
      s.call.dependencies = some deps →
      Declared.ofSite s.graph s.source deps = .array array entries →
      ((s.diff entries).isClean = true →
        s.check.filter (·.kind == .dependencyMismatch) = []) ∧
      ((s.diff entries).isClean = false → ∃ message,
        Message.mismatch? s.call.display (s.diff entries) = some message ∧
        s.check.filter (·.kind == .dependencyMismatch) =
          [s.mismatch array entries (s.diff entries) message]) := by
  refine ⟨fun _ _ _ => isClean_compare_iff, fun _ _ => mismatch?_eq_none_iff, ?_⟩
  intro s deps array entries hdeps hdecl
  rw [Subject.filter_check hdeps hdecl]
  rcases s.judgement_cases array entries with
    ⟨hclean, hremarks⟩ | ⟨hwrong, message, hmessage, hone⟩
  · refine ⟨fun _ => Subject.filter_of_isRemark hremarks, fun hwrong => ?_⟩
    rw [hclean] at hwrong
    contradiction
  · refine ⟨fun hclean => ?_, fun _ => ⟨message, hmessage, ?_⟩⟩
    · rw [hwrong] at hclean
      contradiction
    · rw [hone]
      rfl

theorem mismatch_reported_iff_memo :
    memoSubject.call.dependencies = some memoDeps ∧
    Declared.ofSite memoSubject.graph memoSubject.source memoDeps =
      .array memoDeps.unwrap memoEntries ∧
    (memoSubject.diff memoEntries).isClean = false ∧
    ∃ message, Message.mismatch? memoSubject.call.display (memoSubject.diff memoEntries) =
        some message ∧
      memoSubject.check.filter (·.kind == .dependencyMismatch) =
        [memoSubject.mismatch memoDeps.unwrap memoEntries (memoSubject.diff memoEntries) message] := by
  have hdeps : memoSubject.call.dependencies = some memoDeps := (Option.some_get _).symm
  have hdecl : Declared.ofSite memoSubject.graph memoSubject.source memoDeps =
      .array memoDeps.unwrap memoEntries :=
    Declared.ofSite_of_array (by decide +kernel) (by decide +kernel)
  have hwrong : (memoSubject.diff memoEntries).isClean = false := by
    rw [Diff.isClean, memo_diff.1]
    rfl
  obtain ⟨-, -, hreported⟩ := mismatch_reported_iff
  exact ⟨hdeps, hdecl, hwrong,
    (hreported memoSubject memoDeps memoDeps.unwrap memoEntries hdeps hdecl).2 hwrong⟩

end HookLint.Dependency
