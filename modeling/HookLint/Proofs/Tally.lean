/-
Counts and the decision to fail.

A run ends by printing how many findings there are of each severity and by failing when the
worst of them reaches a threshold.  The two are folds over the same findings, one that keeps
seven counters and one that keeps a maximum.

`Counts.Tallies` says what the counters are of a list of findings, and every finding that is
counted keeps it (`Tallies.add`).  The maximum reaches a threshold exactly when some finding
does (`reaches_foldl`).  So the decision can be read off the printed counters, and as both
are the same for any order of the findings, it does not matter which file a finding is in.
-/
import HookLint.Command.Check
import Mathlib.Algebra.Ring.Nat
import Mathlib.Data.List.Perm.Basic

namespace HookLint

namespace Severity

theorem mem_worstFirst (s : Severity) : s ∈ worstFirst := by
  cases s <;> simp [worstFirst]

theorem nodup_worstFirst : worstFirst.Nodup := by
  decide

/-- One severity reaches another also through the worse of it and a third. -/
theorem le_rank_max {t a b : Severity} :
    t.rank ≤ (a.max b).rank ↔ t.rank ≤ a.rank ∨ t.rank ≤ b.rank := by
  unfold max
  by_cases hab : a.rank ≤ b.rank
  · rw [if_pos hab]
    omega
  · rw [if_neg hab]
    omega

theorem max_eq_or (a b : Severity) : a.max b = a ∨ a.max b = b := by
  unfold max
  split
  · exact Or.inr rfl
  · exact Or.inl rfl

end Severity

namespace Counts

/-! ### Counters -/

/-- The counters are those of a list of findings. -/
structure Tallies (c : Counts) (ds : List Diagnostic) : Prop where
  bySeverity : ∀ s, c.ofSeverity s = ds.countP (·.severity = s)
  total : c.total = ds.length
  fixable : c.fixable = ds.countP (·.suggestion.isSome)

theorem ofSeverity_add (c : Counts) (d : Diagnostic) (s : Severity) :
    (c.add d).ofSeverity s = c.ofSeverity s + if d.severity = s then 1 else 0 := by
  unfold add
  cases d.severity <;> cases s <;> simp [ofSeverity]

theorem total_add (c : Counts) (d : Diagnostic) : (c.add d).total = c.total + 1 := by
  unfold add
  cases d.severity <;> rfl

theorem fixable_add (c : Counts) (d : Diagnostic) :
    (c.add d).fixable = c.fixable + if d.suggestion.isSome then 1 else 0 := by
  unfold add
  cases d.severity <;> rfl

theorem Tallies.add {c : Counts} {ds : List Diagnostic} (h : c.Tallies ds) (d : Diagnostic) :
    (c.add d).Tallies (ds ++ [d]) where
  bySeverity s := by
    rw [ofSeverity_add, h.bySeverity, List.countP_append, List.countP_singleton]
    simp
  total := by rw [total_add, h.total, List.length_append, List.length_singleton]
  fixable := by rw [fixable_add, h.fixable, List.countP_append, List.countP_singleton]

theorem Tallies.foldl {c : Counts} {ds : List Diagnostic} (h : c.Tallies ds)
    (more : List Diagnostic) : (more.foldl Counts.add c).Tallies (ds ++ more) := by
  induction more generalizing c ds with
  | nil => simpa using h
  | cons d more ih => simpa using ih (h.add d)

theorem tallies_ofDiagnostics (ds : List Diagnostic) : (ofDiagnostics ds).Tallies ds := by
  have hempty : Tallies {} [] := ⟨fun s => by cases s <;> rfl, rfl, rfl⟩
  exact hempty.foldl ds

/-- The counters of some of the severities count the findings of those severities. -/
theorem Tallies.sum {c : Counts} {ds : List Diagnostic} (h : c.Tallies ds) {ss : List Severity}
    (hss : ss.Nodup) : (ss.map c.ofSeverity).sum = ds.countP fun d => d.severity ∈ ss := by
  induction ss with
  | nil => simp
  | cons s ss ih =>
      rw [List.nodup_cons] at hss
      rw [List.map_cons, List.sum_cons, ih hss.2, h.bySeverity,
        List.countP_eq_countP_filter_add ds (fun d => d.severity ∈ s :: ss) (·.severity = s),
        List.countP_filter, List.countP_filter]
      -- A finding of severity `s` is not counted again with the rest.
      congr 1
      · refine List.countP_congr fun d _ => ?_
        by_cases hd : d.severity = s <;> simp [hd]
      · refine List.countP_congr fun d _ => ?_
        by_cases hd : d.severity = s
        · simp [hd, hss.1]
        · simp [hd]

/-- Counters of one list of findings are counters of any other order of it. -/
theorem Tallies.perm {c : Counts} {ds ds' : List Diagnostic} (h : c.Tallies ds)
    (hperm : ds.Perm ds') : c.Tallies ds' where
  bySeverity s := by rw [h.bySeverity, hperm.countP_eq]
  total := by rw [h.total, hperm.length_eq]
  fixable := by rw [h.fixable, hperm.countP_eq]

theorem Tallies.unique {c c' : Counts} {ds : List Diagnostic} (h : c.Tallies ds)
    (h' : c'.Tallies ds) : c = c' := by
  have hsame : ∀ s, c.ofSeverity s = c'.ofSeverity s := by
    intro s
    rw [h.bySeverity, h'.bySeverity]
  have htotal : c.total = c'.total := by rw [h.total, h'.total]
  have hfixable : c.fixable = c'.fixable := by rw [h.fixable, h'.fixable]
  rw [mk.injEq]
  exact ⟨hsame .critical, hsame .high, hsame .medium, hsame .low, hsame .info, htotal, hfixable⟩

/-- The sum of the counters of the severities at or above a threshold. -/
def atOrAbove (c : Counts) (t : Severity) : Nat :=
  ((Severity.worstFirst.filter fun s => t.rank ≤ s.rank).map c.ofSeverity).sum

theorem Tallies.atOrAbove_eq {c : Counts} {ds : List Diagnostic} (h : c.Tallies ds)
    (t : Severity) : c.atOrAbove t = ds.countP fun d => t.rank ≤ d.severity.rank := by
  rw [atOrAbove, h.sum (Severity.nodup_worstFirst.filter _)]
  refine List.countP_congr fun d _ => ?_
  simp [Severity.mem_worstFirst]

theorem Tallies.sum_eq_total {c : Counts} {ds : List Diagnostic} (h : c.Tallies ds) :
    c.critical + c.high + c.medium + c.low + c.info = c.total := by
  have hsum := h.sum Severity.nodup_worstFirst
  simp only [Severity.mem_worstFirst, decide_true, List.countP_true, ← h.total] at hsum
  simp only [Severity.worstFirst, List.map_cons, List.map_nil, List.sum_cons, List.sum_nil,
    ofSeverity] at hsum
  omega

end Counts

namespace CheckReport

/-! ### The worst finding -/

/-- A severity was found that reaches the threshold. -/
def Reaches (t : Severity) (worst : Option Severity) : Prop := ∃ s, worst = some s ∧ t.rank ≤ s.rank

/-- Taking the worse severity at every step ends at one that reaches the threshold exactly when
some step meets one that does. -/
theorem reaches_foldl {t : Severity}
    {f : Option Severity → FileReport × Diagnostic → Option Severity}
    (hf : ∀ worst p, f worst p = some ((worst.map (·.max p.2.severity)).getD p.2.severity))
    {l : List (FileReport × Diagnostic)} {worst : Option Severity} :
    Reaches t (l.foldl f worst) ↔ Reaches t worst ∨ ∃ p ∈ l, t.rank ≤ p.2.severity.rank := by
  induction l generalizing worst with
  | nil => simp
  | cons p l ih =>
      have hstep : Reaches t (f worst p) ↔ Reaches t worst ∨ t.rank ≤ p.2.severity.rank := by
        rw [hf]
        cases worst with
        | none => simp [Reaches]
        | some s => simp [Reaches, Severity.le_rank_max]
      rw [List.foldl_cons, ih, hstep]
      simp [or_assoc]

theorem exceeds_iff_reaches {r : CheckReport} {t : Severity} :
    r.exceeds (some t) = true ↔ Reaches t r.worst? := by
  unfold exceeds Reaches
  cases r.worst? <;> simp

theorem map_snd_findings (r : CheckReport) :
    r.findings.map (·.2) = r.files.flatMap (·.diagnostics) := by
  simp [findings, List.map_flatMap, Function.comp_def]

/-- A threshold is exceeded when a finding is at or above it. -/
theorem exceeds_iff_exists {r : CheckReport} {t : Severity} :
    r.exceeds (some t) = true ↔
      ∃ d ∈ r.files.flatMap (·.diagnostics), t.rank ≤ d.severity.rank := by
  rw [exceeds_iff_reaches, worst?, reaches_foldl fun _ _ => rfl, ← map_snd_findings]
  constructor
  · intro h
    rcases h with ⟨_, hnone, -⟩ | ⟨p, hp, hle⟩
    · contradiction
    · exact ⟨p.2, List.mem_map_of_mem hp, hle⟩
  · intro h
    obtain ⟨d, hd, hle⟩ := h
    obtain ⟨p, hp, rfl⟩ := List.mem_map.mp hd
    exact Or.inr ⟨p, hp, hle⟩

theorem exceeds_none (r : CheckReport) : r.exceeds none = false := rfl

/-- The decision can be read off the counters. -/
theorem exceeds_ofFiles_iff {root : String} {files : List FileReport} {t : Severity} :
    (ofFiles root files).exceeds (some t) = true ↔
      0 < (ofFiles root files).summary.atOrAbove t := by
  have htally : (ofFiles root files).summary.Tallies (files.flatMap (·.diagnostics)) :=
    Counts.tallies_ofDiagnostics _
  rw [exceeds_iff_exists, htally.atOrAbove_eq, List.countP_pos_iff]
  simp [ofFiles]

/-! ### Findings shared out in another way -/

/-- The same findings in other files: the files stand in another order, or the findings of one
are split over two. -/
inductive Regrouped : List FileReport → List FileReport → Prop
  | reorder {files files' : List FileReport} (h : files.Perm files') : Regrouped files files'
  | split (before after : List FileReport) {f g g' : FileReport}
      (h : f.diagnostics.Perm (g.diagnostics ++ g'.diagnostics)) :
      Regrouped (before ++ f :: after) (before ++ g :: g' :: after)
  | symm {files files' : List FileReport} (h : Regrouped files files') : Regrouped files' files
  | trans {files files' files'' : List FileReport} (h : Regrouped files files')
      (h' : Regrouped files' files'') : Regrouped files files''

theorem Regrouped.perm {files files' : List FileReport} (h : Regrouped files files') :
    (files.flatMap (·.diagnostics)).Perm (files'.flatMap (·.diagnostics)) := by
  induction h with
  | reorder h => exact h.flatMap_right _
  | split before after h =>
      simp only [List.flatMap_append, List.flatMap_cons, ← List.append_assoc]
      refine List.Perm.append_right _ ?_
      rw [List.append_assoc]
      exact List.Perm.append_left _ h
  | symm _ ih => exact ih.symm
  | trans _ _ ih ih' => exact ih.trans ih'

theorem Regrouped.summary_eq {files files' : List FileReport} (h : Regrouped files files')
    (root root' : String) : (ofFiles root' files').summary = (ofFiles root files).summary :=
  (Counts.tallies_ofDiagnostics _).unique ((Counts.tallies_ofDiagnostics _).perm h.perm)

theorem Regrouped.exceeds_eq {files files' : List FileReport} (h : Regrouped files files')
    (root root' : String) (threshold : Option Severity) :
    (ofFiles root' files').exceeds threshold = (ofFiles root files).exceeds threshold := by
  cases threshold with
  | none => rfl
  | some t =>
      rw [Bool.eq_iff_iff, exceeds_ofFiles_iff, exceeds_ofFiles_iff, h.summary_eq root root']

/-- The exit code says whether the threshold is exceeded. -/
theorem code_verdict (r : CheckReport) (threshold : Option Severity) :
    (Command.verdict r threshold).1 = if r.exceeds threshold then 1 else 0 := by
  cases threshold with
  | none => rfl
  | some t =>
      unfold Command.verdict
      by_cases h : r.exceeds (some t) <;> simp [h]

/-- The counters of a report count its findings, the decision to fail is what they say, and
neither depends on how the findings are shared out over the files. -/
theorem counts_decide_exit (root : String) (files : List FileReport) :
    ((ofFiles root files).summary.critical + (ofFiles root files).summary.high +
        (ofFiles root files).summary.medium + (ofFiles root files).summary.low +
        (ofFiles root files).summary.info = (ofFiles root files).summary.total) ∧
      (ofFiles root files).summary.total = (files.flatMap (·.diagnostics)).length ∧
      (ofFiles root files).summary.fixable =
        ((files.flatMap (·.diagnostics)).filter (·.suggestion.isSome)).length ∧
      (∀ t, (ofFiles root files).exceeds (some t) = true ↔
        0 < (ofFiles root files).summary.atOrAbove t) ∧
      (ofFiles root files).exceeds none = false ∧
      (∀ threshold, (Command.verdict (ofFiles root files) threshold).1 =
        if (ofFiles root files).exceeds threshold then 1 else 0) ∧
      ∀ other, Regrouped files other →
        (ofFiles root other).summary = (ofFiles root files).summary ∧
          ∀ threshold,
            (ofFiles root other).exceeds threshold = (ofFiles root files).exceeds threshold := by
  have htally : (ofFiles root files).summary.Tallies (files.flatMap (·.diagnostics)) :=
    Counts.tallies_ofDiagnostics _
  refine ⟨htally.sum_eq_total, htally.total, ?_, fun t => exceeds_ofFiles_iff, exceeds_none _,
    code_verdict _, fun other h => ⟨h.summary_eq root root, h.exceeds_eq root root⟩⟩
  rw [htally.fixable, List.countP_eq_length_filter]

/-- A file with findings of these severities. -/
def ofSeverities (severities : List Severity) : FileReport :=
  { path := "a.js", error := none
    diagnostics := severities.map fun severity =>
      { rule := "", kind := .asyncEffect, hookName := "", missing := [], unnecessary := []
        duplicate := [], message := "", severity, span := default, suggestion := none } }

theorem counts_decide_exit_split :
    Regrouped [ofSeverities [.low, .high]] [ofSeverities [.high], ofSeverities [.low]] ∧
      0 < (ofFiles "" [ofSeverities [.low, .high]]).summary.atOrAbove .medium ∧
      (ofFiles "" [ofSeverities [.high], ofSeverities [.low]]).exceeds (some .medium) = true ∧
      (ofFiles "" [ofSeverities [.high], ofSeverities [.low]]).exceeds (some .critical) =
        false := by
  have hgroups :
      Regrouped [ofSeverities [.low, .high]] [ofSeverities [.high], ofSeverities [.low]] :=
    .split [] [] (List.Perm.swap _ _ [])
  have hcount : 0 < (ofFiles "" [ofSeverities [.low, .high]]).summary.atOrAbove .medium := by decide
  obtain ⟨-, -, -, hexceeds, -, -, hgrouped⟩ :=
    counts_decide_exit "" [ofSeverities [.low, .high]]
  obtain ⟨-, hsame⟩ := hgrouped _ hgroups
  refine ⟨hgroups, hcount, ?_, ?_⟩
  · rw [hsame, hexceeds]
    exact hcount
  · rw [hsame]
    decide

end CheckReport

end HookLint
