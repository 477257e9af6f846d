/-
Rules that fail.

A rule that gives up or breaks down leaves a report with an error and takes nothing from it.
What is reported is what the other rules found, by position, and what they found at one
position in the order of the rules.  These two conditions leave one list only
(`ByPosition.unique`), and the rules that fail have no part in them, so a report without these
rules has the same findings (`failing_rules_isolated`).

The statistics on the runs are kept one run at a time.  `Accounts` says what they are of the
runs so far, and each run keeps it (`Accounts.add`).
-/
import HookLint.Proofs.Sorting
import HookLint.Rule.Engine
import HookLint.Rule.Summary
import Mathlib.Algebra.Ring.Nat

namespace HookLint

/-! ### Findings by position -/

namespace Engine

/-- `sorted` has the findings of `ds` from the first start to the last, those that start together
from the first stop to the last, and those of one range as they stand in `ds`. -/
structure ByPosition (ds sorted : List Diagnostic) : Prop where
  perm : sorted.Perm ds
  ordered : sorted.Pairwise fun a b =>
    a.span.start < b.span.start ∨ a.span.start = b.span.start ∧ a.span.stop ≤ b.span.stop
  stable : ∀ start stop,
    sorted.filter (fun d => d.span.start == start && d.span.stop == stop) =
      ds.filter (fun d => d.span.start == start && d.span.stop == stop)

theorem precedes_iff (a b : Diagnostic) : precedes a b = true ↔
    a.span.start < b.span.start ∨ a.span.start = b.span.start ∧ a.span.stop ≤ b.span.stop := by
  unfold precedes
  split <;> rw [decide_eq_true_eq] <;> omega

theorem level_precedes (a : Diagnostic) :
    Sorting.level precedes a =
      fun d => d.span.start == a.span.start && d.span.stop == a.span.stop := by
  funext d
  rw [Bool.eq_iff_iff, Sorting.level, Bool.and_eq_true, Bool.and_eq_true, precedes_iff,
    precedes_iff, beq_iff_eq, beq_iff_eq]
  omega

theorem byPosition_mergeSort (ds : List Diagnostic) : ByPosition ds (ds.mergeSort precedes) := by
  have htrans : ∀ a b c : Diagnostic, precedes a b = true → precedes b c = true →
      precedes a c = true := by
    intro a b c
    rw [precedes_iff, precedes_iff, precedes_iff]
    omega
  have htotal : ∀ a b : Diagnostic, (precedes a b || precedes b a) = true := by
    intro a b
    rw [Bool.or_eq_true, precedes_iff, precedes_iff]
    omega
  refine ⟨List.mergeSort_perm ds _, ?_, fun start stop => ?_⟩
  · exact (List.pairwise_mergeSort htrans htotal ds).imp fun h => (precedes_iff _ _).mp h
  · refine Sorting.filter_mergeSort htrans htotal (fun a b ha hb => ?_) ds
    simp only [Bool.and_eq_true, beq_iff_eq] at ha hb
    rw [precedes_iff]
    omega

theorem ByPosition.unique {ds xs ys : List Diagnostic} (hxs : ByPosition ds xs)
    (hys : ByPosition ds ys) : xs = ys := by
  have hrefl : ∀ a : Diagnostic, precedes a a = true := by
    intro a
    rw [precedes_iff]
    omega
  refine Sorting.eq_of_pairwise_of_filter_eq hrefl ?_ ?_ ?_
  · exact hxs.ordered.imp fun h => (precedes_iff _ _).mpr h
  · exact hys.ordered.imp fun h => (precedes_iff _ _).mpr h
  · intro a
    rw [level_precedes, hxs.stable, hys.stable]

end Engine

/-! ### Outcomes -/

namespace Outcome

/-- The rule ended well. -/
def succeeds : Outcome → Bool
  | found _ => true
  | failed _ | crashed _ => false

theorem diagnostics_of_not_succeeds {o : Outcome} (h : ¬ o.succeeds = true) :
    o.diagnostics = [] := by
  cases o <;> simp_all [succeeds, diagnostics]

theorem error?_of_succeeds {o : Outcome} (h : o.succeeds = true) : o.error? = none := by
  cases o <;> simp_all [succeeds, error?]

theorem exists_error?_of_not_succeeds {o : Outcome} (h : ¬ o.succeeds = true) :
    ∃ error, o.error? = some error := by
  cases o <;> simp_all [succeeds, error?]

/-- Outcomes that are not good add nothing to the findings. -/
theorem flatMap_filter_succeeds (os : List Outcome) :
    (os.filter succeeds).flatMap diagnostics = os.flatMap diagnostics := by
  induction os with
  | nil => rfl
  | cons o os ih =>
      by_cases h : o.succeeds = true
      · rw [List.filter_cons_of_pos h, List.flatMap_cons, List.flatMap_cons, ih]
      · rw [List.filter_cons_of_neg h, List.flatMap_cons, diagnostics_of_not_succeeds h, ih,
          List.nil_append]

/-- The first error is that of the first outcome that is not good. -/
theorem head?_filterMap_error? (os : List Outcome) :
    (os.filterMap error?).head? = (os.find? (!·.succeeds)).bind error? := by
  induction os with
  | nil => rfl
  | cons o os ih =>
      by_cases h : o.succeeds = true
      · rw [List.filterMap_cons_none (error?_of_succeeds h), List.find?_cons_of_neg (by simp [h]),
          ih]
      · obtain ⟨error, herror⟩ := exists_error?_of_not_succeeds h
        rw [List.filterMap_cons_some herror, List.find?_cons_of_pos (by simp [h]), List.head?_cons,
          Option.bind_some, herror]

end Outcome

/-! ### Statistics -/

namespace RuleSummary

/-- The counts of a list of severities. -/
structure Counted (counts : List (Severity × Nat)) (severities : List Severity) : Prop where
  /-- a severity that does not occur is not listed -/
  lookup : ∀ s, counts.lookup s =
    if severities.count s = 0 then none else some (severities.count s)
  sum : (counts.map (·.2)).sum = severities.length

theorem lookup_cons_eq_ite (t k : Severity) (n : Nat) (counts : List (Severity × Nat)) :
    ((k, n) :: counts).lookup t = if t = k then some n else counts.lookup t := by
  by_cases htk : t = k
  · rw [htk, List.lookup_cons_self, if_pos rfl]
  · rw [List.lookup_cons, beq_eq_false_iff_ne.mpr htk, if_neg htk]

theorem lookup_countSeverity (counts : List (Severity × Nat)) (s t : Severity) :
    (countSeverity counts s).lookup t =
      if t = s then some ((counts.lookup t).getD 0 + 1) else counts.lookup t := by
  induction counts with
  | nil => rw [countSeverity, lookup_cons_eq_ite, List.lookup_nil, Option.getD_none]
  | cons entry counts ih =>
      obtain ⟨k, n⟩ := entry
      rw [countSeverity, lookup_cons_eq_ite]
      by_cases hks : k = s
      · by_cases hts : t = s <;> simp [lookup_cons_eq_ite, hks, hts]
      · by_cases htk : t = k <;> simp [lookup_cons_eq_ite, hks, htk, ih]

theorem sum_countSeverity (counts : List (Severity × Nat)) (s : Severity) :
    ((countSeverity counts s).map (·.2)).sum = (counts.map (·.2)).sum + 1 := by
  induction counts with
  | nil => rfl
  | cons entry counts ih =>
      rw [countSeverity]
      split
      · simp only [List.map_cons, List.sum_cons]
        omega
      · simp only [List.map_cons, List.sum_cons, ih]
        omega

theorem Counted.step {counts : List (Severity × Nat)} {severities : List Severity}
    (h : Counted counts severities) (s : Severity) :
    Counted (countSeverity counts s) (severities ++ [s]) where
  lookup t := by
    rw [lookup_countSeverity, h.lookup, List.count_append, List.count_singleton]
    by_cases hts : t = s
    · by_cases hcount : severities.count t = 0 <;> simp [hts ▸ hcount, hts]
    · simp [hts, Ne.symm hts]
  sum := by rw [sum_countSeverity, h.sum, List.length_append, List.length_singleton]

theorem Counted.foldl {counts : List (Severity × Nat)} {severities : List Severity}
    (h : Counted counts severities) (more : List Severity) :
    Counted (more.foldl countSeverity counts) (severities ++ more) := by
  induction more generalizing counts severities with
  | nil => simpa using h
  | cons s more ih => simpa using ih (h.step s)

theorem Counted.getD_lookup {counts : List (Severity × Nat)} {severities : List Severity}
    (h : Counted counts severities) (s : Severity) :
    (counts.lookup s).getD 0 = severities.count s := by
  rw [h.lookup]
  split
  · rename_i hnone
    rw [hnone, Option.getD_none]
  · rfl

/-- What the rules of a list of runs found. -/
def findings (runs : List RuleRun) : List Diagnostic := runs.flatMap (·.outcome.diagnostics)

/-- The statistics are those of a list of runs. -/
structure Accounts (s : RuleSummary) (runs : List RuleRun) : Prop where
  run : s.run = runs.length
  succeeded : s.succeeded = runs.countP (·.outcome.succeeds)
  failed : s.failed = runs.countP (!·.outcome.succeeds)
  diagnostics : s.diagnostics = (findings runs).length
  bySeverity : Counted s.bySeverity ((findings runs).map (·.severity))
  milliseconds : s.milliseconds = (runs.map (·.milliseconds)).sum

theorem add_of_found {s : RuleSummary} {r : RuleRun} {ds : List Diagnostic}
    (h : r.outcome = .found ds) : s.add r = { s with
      run := s.run + 1
      succeeded := s.succeeded + 1
      diagnostics := s.diagnostics + ds.length
      bySeverity := (ds.map (·.severity)).foldl countSeverity s.bySeverity
      milliseconds := s.milliseconds + r.milliseconds } := by
  rw [add, h]

theorem add_of_not_succeeds {s : RuleSummary} {r : RuleRun} (h : ¬ r.outcome.succeeds = true) :
    s.add r = { s with
      run := s.run + 1
      failed := s.failed + 1
      milliseconds := s.milliseconds + r.milliseconds } := by
  unfold add
  split
  · rename_i ds houtcome
    rw [houtcome] at h
    exact absurd rfl h
  · rfl

theorem Accounts.add {s : RuleSummary} {runs : List RuleRun} (h : s.Accounts runs) (r : RuleRun) :
    (s.add r).Accounts (runs ++ [r]) := by
  obtain ⟨hrun, hsucceeded, hfailed, hdiagnostics, hseverity, htime⟩ := h
  have hfindings : findings (runs ++ [r]) = findings runs ++ r.outcome.diagnostics := by
    simp [findings]
  by_cases hr : r.outcome.succeeds = true
  · obtain ⟨ds, houtcome⟩ : ∃ ds, r.outcome = .found ds := by
      cases houtcome : r.outcome with
      | found ds => exact ⟨ds, rfl⟩
      | _ => rw [houtcome] at hr; contradiction
    rw [houtcome, Outcome.diagnostics] at hfindings
    rw [add_of_found houtcome]
    refine ⟨by simp [hrun], by simp [hsucceeded, hr], by simp [hfailed, hr],
      by simp [hfindings, hdiagnostics], ?_, by simp [htime]⟩
    rw [hfindings, List.map_append]
    exact hseverity.foldl (ds.map (·.severity))
  · rw [Outcome.diagnostics_of_not_succeeds hr, List.append_nil] at hfindings
    rw [add_of_not_succeeds hr]
    refine ⟨by simp [hrun], by simp [hsucceeded, hr], by simp [hfailed, hr],
      by simp [hfindings, hdiagnostics], ?_, by simp [htime]⟩
    rw [hfindings]
    exact hseverity

theorem accounts_ofRuns (runs : List RuleRun) : (ofRuns runs).Accounts runs := by
  -- The fold goes from the left, so the runs accounted for are a growing front part.
  suffices hfold : ∀ (front : List RuleRun) (s : RuleSummary), s.Accounts front →
      (runs.foldl add s).Accounts (front ++ runs) from
    hfold [] {} ⟨rfl, rfl, rfl, rfl, ⟨fun _ => rfl, rfl⟩, rfl⟩
  induction runs with
  | nil => intro front s h; simpa using h
  | cons r runs ih =>
      intro front s h
      simpa using ih (front ++ [r]) (s.add r) (h.add r)

theorem Accounts.run_eq {s : RuleSummary} {runs : List RuleRun} (h : s.Accounts runs) :
    s.run = s.succeeded + s.failed := by
  rw [h.run, h.succeeded, h.failed, List.length_eq_countP_add_countP (·.outcome.succeeds)]
  simp

end RuleSummary

/-! ### Failing rules -/

namespace Engine

variable {e : Engine} {u : SourceUnit}

/-- How running a rule on a source ends. -/
def outcome (u : SourceUnit) (rule : Rule) : Outcome :=
  rule.check u (Scope.Graph.build u.source u.tree)

/-- The engine without the rules that fail on a source. -/
def succeeding (e : Engine) (u : SourceUnit) : Engine :=
  { e with rules := e.rules.filter fun rule => (outcome u rule).succeeds }

theorem map_outcome_succeeding (e : Engine) (u : SourceUnit) :
    (e.succeeding u).rules.map (outcome u) = (e.rules.map (outcome u)).filter Outcome.succeeds := by
  rw [succeeding, List.filter_map]
  rfl

theorem diagnostics_checkSource (e : Engine) (u : SourceUnit) :
    (e.checkSource u).diagnostics =
      ((e.rules.map (outcome u)).flatMap Outcome.diagnostics).mergeSort precedes := rfl

theorem error_checkSource (e : Engine) (u : SourceUnit) :
    (e.checkSource u).error =
      (e.rules.find? fun rule => !(outcome u rule).succeeds).bind fun rule =>
        (outcome u rule).error? := by
  have hfirst := Outcome.head?_filterMap_error? (e.rules.map (outcome u))
  rw [List.find?_map, Option.bind_map] at hfirst
  exact hfirst

/-- There is no error when no rule fails. -/
theorem error_checkSource_eq_none_iff (e : Engine) (u : SourceUnit) :
    (e.checkSource u).error = none ↔ ∀ rule ∈ e.rules, (outcome u rule).succeeds = true := by
  rw [error_checkSource]
  cases hfirst : e.rules.find? fun rule => !(outcome u rule).succeeds with
  | none => simpa using hfirst
  | some rule =>
      have hfails : ¬ (outcome u rule).succeeds = true := by simpa using List.find?_some hfirst
      obtain ⟨error, herror⟩ := Outcome.exists_error?_of_not_succeeds hfails
      rw [Option.bind_some, herror]
      refine iff_of_false (Option.some_ne_none error) fun hall => hfails ?_
      exact hall rule (List.mem_of_find?_eq_some hfirst)

theorem byPosition_checkSource (e : Engine) (u : SourceUnit) :
    ByPosition ((e.succeeding u).rules.flatMap fun rule => (outcome u rule).diagnostics)
      (e.checkSource u).diagnostics := by
  have hfindings : (e.succeeding u).rules.flatMap (fun rule => (outcome u rule).diagnostics) =
      (e.rules.map (outcome u)).flatMap Outcome.diagnostics := by
    rw [← Outcome.flatMap_filter_succeeds, ← map_outcome_succeeding, List.flatMap_map]
  rw [hfindings]
  exact byPosition_mergeSort _

/-- Statistics that agree with the report on a source. -/
structure Agrees (e : Engine) (u : SourceUnit) (s : RuleSummary) : Prop where
  run : s.run = s.succeeded + s.failed
  succeeded : s.succeeded = (e.succeeding u).rules.length
  failed : s.failed = e.rules.countP fun rule => !(outcome u rule).succeeds
  diagnostics : s.diagnostics = (e.checkSource u).diagnostics.length
  sum : (s.bySeverity.map (·.2)).sum = s.diagnostics
  bySeverity : ∀ severity, (s.bySeverity.lookup severity).getD 0 =
    (e.checkSource u).diagnostics.countP (·.severity = severity)

theorem agrees_ofRuns {runs : List RuleRun}
    (hruns : runs.map (·.outcome) = e.rules.map (outcome u)) : e.Agrees u (.ofRuns runs) := by
  have haccounts := RuleSummary.accounts_ofRuns runs
  have hcount : ∀ p : Outcome → Bool,
      runs.countP (fun r => p r.outcome) = e.rules.countP fun rule => p (outcome u rule) := by
    intro p
    have := congrArg (List.countP p) hruns
    rwa [List.countP_map, List.countP_map] at this
  have hperm : (e.checkSource u).diagnostics.Perm (RuleSummary.findings runs) := by
    have hfindings : RuleSummary.findings runs =
        (e.rules.map (outcome u)).flatMap Outcome.diagnostics := by
      rw [← hruns, List.flatMap_map, RuleSummary.findings]
    rw [hfindings, diagnostics_checkSource]
    exact List.mergeSort_perm _ _
  have hsum := haccounts.bySeverity.sum
  rw [List.length_map, ← haccounts.diagnostics] at hsum
  refine ⟨haccounts.run_eq, ?_, haccounts.failed.trans (hcount (!·.succeeds)), ?_, hsum, ?_⟩
  · rw [haccounts.succeeded, hcount, List.countP_eq_length_filter, succeeding]
  · rw [haccounts.diagnostics, hperm.length_eq]
  · intro severity
    rw [haccounts.bySeverity.getD_lookup, hperm.countP_eq, List.count, List.countP_map]
    rfl

/-- A failing rule affects nothing but the error.  The findings are those of the rules that end
well, rule after rule, put in order of position, and they are the same when the other rules are left
out.  The error is that of the first rule that fails, and there is none when none fails.  The
statistics on the runs, however long each of them takes, count every rule as one that ended well or
failed, and they count the findings that are reported, all of them and by severity. -/
theorem failing_rules_isolated (e : Engine) (u : SourceUnit) {runs : List RuleRun}
    (hruns : runs.map (·.outcome) = e.rules.map (outcome u)) :
    (∀ ds, (e.checkSource u).diagnostics = ds ↔
      ByPosition ((e.succeeding u).rules.flatMap fun rule => (outcome u rule).diagnostics) ds) ∧
    ((e.succeeding u).checkSource u).diagnostics = (e.checkSource u).diagnostics ∧
    (e.checkSource u).error =
      (e.rules.find? fun rule => !(outcome u rule).succeeds).bind
        (fun rule => (outcome u rule).error?) ∧
    ((e.checkSource u).error = none ↔ ∀ rule ∈ e.rules, (outcome u rule).succeeds = true) ∧
    e.Agrees u (.ofRuns runs) := by
  refine ⟨?_, ?_, error_checkSource e u, error_checkSource_eq_none_iff e u, agrees_ofRuns hruns⟩
  · intro ds
    constructor
    · rintro rfl
      exact byPosition_checkSource e u
    · exact (byPosition_checkSource e u).unique
  · rw [diagnostics_checkSource, diagnostics_checkSource, map_outcome_succeeding,
      Outcome.flatMap_filter_succeeds]

/-- A finding at a range of bytes. -/
def findingAt (message : String) (severity : Severity) (start stop : Nat) : Diagnostic :=
  { rule := "", kind := .complexDependency, hookName := "", missing := [], unnecessary := []
    duplicate := [], message, severity
    span := ⟨start, stop, 1, start + 1, 1, stop + 1⟩, suggestion := none }

/-- A rule that ends in one way on every source. -/
def constantRule (outcome : Outcome) : Rule :=
  { name := "", description := "", check := fun _ _ => outcome }

/-- Of four rules the first breaks down and the third gives up. -/
def mixedEngine : Engine :=
  { rules := [constantRule (.crashed "boom"),
      constantRule (.found [findingAt "c" .high 4 6, findingAt "a" .low 1 2]),
      constantRule (.failed "no"),
      constantRule (.found [findingAt "d" .low 4 6, findingAt "b" .info 4 5])] }

def emptyUnit : SourceUnit :=
  { path := "a.js", source := "", tree := .node ⟨0, "program", .other, true, false, [], 0, 0⟩ [] }

/-- The findings at one range, "c" and "d", stand in the order of their rules. -/
theorem failing_rules_isolated_mixed :
    ∃ runs : List RuleRun, runs.map (·.outcome) = mixedEngine.rules.map (outcome emptyUnit) ∧
      (mixedEngine.checkSource emptyUnit).diagnostics.map (·.message) = ["a", "b", "c", "d"] ∧
      ((mixedEngine.succeeding emptyUnit).checkSource emptyUnit).diagnostics =
        (mixedEngine.checkSource emptyUnit).diagnostics ∧
      (mixedEngine.checkSource emptyUnit).error = some "Panic: boom" ∧
      (RuleSummary.ofRuns runs).bySeverity = [(.high, 1), (.low, 2), (.info, 1)] ∧
      mixedEngine.Agrees emptyUnit (.ofRuns runs) := by
  let runs := mixedEngine.rules.map fun rule => (⟨rule.name, outcome emptyUnit rule, 3⟩ : RuleRun)
  have hruns : runs.map (·.outcome) = mixedEngine.rules.map (outcome emptyUnit) := rfl
  have hsorted : (mixedEngine.checkSource emptyUnit).diagnostics.map (·.message) =
      ["a", "b", "c", "d"] := by
    simp [checkSource, report, mixedEngine, constantRule, findingAt, Outcome.diagnostics,
      List.mergeSort, List.MergeSort.Internal.splitInTwo, precedes]
  obtain ⟨-, hsame, herror, -, hagrees⟩ := failing_rules_isolated mixedEngine emptyUnit hruns
  exact ⟨runs, hruns, hsorted, hsame, herror, by decide +kernel, hagrees⟩

end Engine

end HookLint
