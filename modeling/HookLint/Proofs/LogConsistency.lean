/-
A log says what its report says.

The rules, the results and the notifications of a log are three passes over one report, and
whoever reads the log relies on their agreeing: a result names a rule that is declared, and no
result is worse than the level its rule declares.

`Document` is what such a reader takes from the JSON value of a log, by the keys of the
format.  Every log is read back (`ofJson?_toJson`), so that the three passes can be compared
with the report.  The rules are kept in order of their names with the worst that each has
found, and every finding that is taken in keeps them so (`Ranks.raise`); the level of a rule
is that of its worst finding, and a worse severity never has a weaker level.
-/
import HookLint.Proofs.ReportText
import HookLint.Proofs.Tally
import HookLint.Report.Sarif
import Mathlib.Data.List.Forall2
import Mathlib.Data.String.Basic

namespace HookLint.Report.Sarif

open Json

/-! ### Reading a log -/

/-- The value under a key. -/
def get? (key : String) : Json → Option Json
  | .object members => members.lookup key
  | _ => none

/-- The value under keys inside of one another. -/
def follow? (keys : List String) (j : Json) : Option Json := keys.foldlM (fun j key => get? key j) j

/-- The text under keys inside of one another. -/
def textAt? (keys : List String) (j : Json) : Option String := (follow? keys j).bind string?

/-- A natural number of any size. -/
def natural? : Json → Option Nat
  | .int (.ofNat n) => some n
  | _ => none

/-- The only item of an array. -/
def only? : Json → Option Json
  | .array [j] => some j
  | _ => none

/-- The items under a key that may be left out. -/
def itemsAt? {α : Type} (item : Json → Option α) (key : String) (j : Json) : Option (List α) :=
  match get? key j with
  | some items => list? item items
  | none => some []

namespace Level

def ofName? (s : String) : Option Level :=
  match s with
  | "note" => some note
  | "warning" => some warning
  | "error" => some error
  | _ => none

/-- The place in the ascending order. -/
def rank : Level → Nat
  | note => 0
  | warning => 1
  | error => 2

end Level

def RuleEntry.ofJson? (j : Json) : Option RuleEntry := do
  let id ← textAt? ["id"] j
  let level ← Level.ofName? (← textAt? ["defaultConfiguration", "level"] j)
  return { id, level }

def Change.ofJson? (j : Json) : Option Change := do
  let description ← textAt? ["description", "text"] j
  let change ← only? (← get? "artifactChanges" j)
  let replacement ← only? (← get? "replacements" change)
  let offset ← natural? (← follow? ["deletedRegion", "byteOffset"] replacement)
  let length ← natural? (← follow? ["deletedRegion", "byteLength"] replacement)
  let text ← textAt? ["insertedContent", "text"] replacement
  return { description, offset, length, text }

/-- Where something is said to be. -/
def uriAt? (j : Json) : Option String := do
  let location ← only? (← get? "locations" j)
  textAt? ["physicalLocation", "artifactLocation", "uri"] location

def Notification.ofJson? (j : Json) : Option Notification := do
  let uri ← uriAt? j
  let text ← textAt? ["message", "text"] j
  return { uri, text }

/-- A result as its reader knows it. -/
structure Finding where
  ruleId : String
  level : Level
  text : String
  uri : String
  fixes : List Change
  deriving DecidableEq, Repr

def Finding.ofJson? (j : Json) : Option Finding := do
  let ruleId ← textAt? ["ruleId"] j
  let level ← Level.ofName? (← textAt? ["level"] j)
  let text ← textAt? ["message", "text"] j
  let uri ← uriAt? j
  let fixes ← itemsAt? Change.ofJson? "fixes" j
  return { ruleId, level, text, uri, fixes }

/-- A log as its reader knows it. -/
structure Document where
  rules : List RuleEntry
  results : List Finding
  notifications : List Notification
  deriving DecidableEq, Repr

def Document.ofJson? (j : Json) : Option Document := do
  let run ← only? (← get? "runs" j)
  let rules ← list? RuleEntry.ofJson? (← follow? ["tool", "driver", "rules"] run)
  let results ← list? Finding.ofJson? (← get? "results" run)
  let invocation ← only? (← get? "invocations" run)
  let notifications ← itemsAt? Notification.ofJson? "toolExecutionNotifications" invocation
  return { rules, results, notifications }

/-! ### Logs are read back -/

theorem Level.ofName?_name (l : Level) : ofName? l.name = some l := by
  cases l <;> rfl

theorem RuleEntry.ofJson?_toJson (r : RuleEntry) : ofJson? r.toJson = some r := by
  have hid : textAt? ["id"] r.toJson = some r.id := rfl
  have hlevel : textAt? ["defaultConfiguration", "level"] r.toJson = some r.level.name := rfl
  simp only [ofJson?, hid, hlevel, Level.ofName?_name, Option.bind_eq_bind, Option.bind_some,
    Option.pure_def]

theorem Change.ofJson?_toJson (c : Change) (uri : String) : ofJson? (c.toJson uri) = some c := rfl

theorem Notification.ofJson?_toJson (n : Notification) : ofJson? n.toJson = some n := rfl

/-- What is said of a result. -/
def Result.finding (r : Result) : Finding :=
  { ruleId := r.diagnostic.rule, level := r.level, text := r.diagnostic.message, uri := r.uri
    fixes := r.fix.toList }

theorem Finding.itemsAt?_fixes (r : Result) :
    itemsAt? Change.ofJson? "fixes" r.toJson = some r.fix.toList := by
  have hget : get? "fixes" r.toJson = r.fix.map fun c => .array [c.toJson r.uri] := by
    rw [Result.toJson]
    cases r.fix <;> rfl
  rw [itemsAt?, hget]
  cases r.fix with
  | none => rfl
  | some c => exact list?_map (l := [c]) fun c _ => c.ofJson?_toJson r.uri

theorem Finding.ofJson?_toJson (r : Result) : ofJson? r.toJson = some r.finding := by
  have hrule : textAt? ["ruleId"] r.toJson = some r.diagnostic.rule := rfl
  have hlevel : textAt? ["level"] r.toJson = some r.level.name := rfl
  have htext : textAt? ["message", "text"] r.toJson = some r.diagnostic.message := rfl
  have huri : uriAt? r.toJson = some r.uri := rfl
  have hfixes := itemsAt?_fixes r
  simp only [ofJson?, hrule, hlevel, htext, huri, hfixes, Level.ofName?_name, Option.bind_eq_bind,
    Option.bind_some, Option.pure_def, Result.finding]

def Log.document (log : Log) : Document :=
  { rules := log.rules, results := log.results.map Result.finding
    notifications := log.notifications }

/-- What a log says of the run. -/
def Log.invocation (log : Log) (time : String) : Json :=
  .object ([("executionSuccessful", .bool true), ("endTimeUtc", .string time)] ++
    Json.optional "toolExecutionNotifications"
      (if log.notifications.isEmpty then none
       else some (.array (log.notifications.map Notification.toJson))))

/-- No notifications are read where the list of them is left out. -/
theorem Log.itemsAt?_invocation (log : Log) (time : String) :
    itemsAt? Notification.ofJson? "toolExecutionNotifications" (log.invocation time) =
      some log.notifications := by
  unfold invocation
  by_cases hempty : log.notifications.isEmpty
  · rw [if_pos hempty, List.isEmpty_iff.mp hempty]
    rfl
  · rw [if_neg hempty]
    exact list?_map fun n _ => n.ofJson?_toJson

theorem Document.ofJson?_toJson (log : Log) (time : String) :
    ofJson? (log.toJson time) = some log.document := by
  have hrules : list? RuleEntry.ofJson? (.array (log.rules.map RuleEntry.toJson)) =
      some log.rules := list?_map fun r _ => r.ofJson?_toJson
  have hresults : list? Finding.ofJson? (.array (log.results.map Result.toJson)) =
      some (log.results.map Result.finding) := mapM_map fun r _ => Finding.ofJson?_toJson r
  have hread : ofJson? (log.toJson time) = (do
      let rules ← list? RuleEntry.ofJson? (.array (log.rules.map RuleEntry.toJson))
      let results ← list? Finding.ofJson? (.array (log.results.map Result.toJson))
      let notifications ← itemsAt? Notification.ofJson? "toolExecutionNotifications"
        (log.invocation time)
      return { rules, results, notifications }) := rfl
  rw [hread, hrules, hresults, log.itemsAt?_invocation]
  rfl

/-! ### Rules -/

/-- A rule is listed after a finding is taken in when it was listed before or made the finding. -/
theorem mem_names_raise {d : Diagnostic} {rules : List (String × Severity)} {id : String} :
    id ∈ (raise d rules).map (·.1) ↔ id = d.rule ∨ id ∈ rules.map (·.1) := by
  induction rules with
  | nil => simp [raise]
  | cons q rest ih =>
      obtain ⟨name, worst⟩ := q
      unfold raise
      by_cases hlt : d.rule < name
      · simp [hlt]
      · by_cases heq : d.rule = name
        · simp [heq]
        · rw [if_neg hlt, if_neg heq, List.map_cons, List.mem_cons, ih, List.map_cons,
            List.mem_cons, or_left_comm]

/-- The rules are in order of their names, and none is listed twice. -/
def Ascending (rules : List (String × Severity)) : Prop := (rules.map (·.1)).Pairwise (· < ·)

theorem Ascending.raise {rules : List (String × Severity)} (h : Ascending rules)
    (d : Diagnostic) : Ascending (raise d rules) := by
  induction rules with
  | nil => exact List.pairwise_singleton _ _
  | cons q rest ih =>
      obtain ⟨name, worst⟩ := q
      obtain ⟨hfirst, hrest⟩ := List.pairwise_cons.mp h
      unfold Sarif.raise
      by_cases hlt : d.rule < name
      · rw [if_pos hlt]
        refine List.pairwise_cons.mpr ⟨fun id hid => ?_, h⟩
        rcases List.mem_cons.mp hid with rfl | hid
        · exact hlt
        · exact lt_trans hlt (hfirst id hid)
      · by_cases heq : d.rule = name
        · rw [if_neg hlt, if_pos heq]
          exact h
        · rw [if_neg hlt, if_neg heq]
          refine List.pairwise_cons.mpr ⟨fun id hid => ?_, ih hrest⟩
          rcases mem_names_raise.mp hid with rfl | hid
          · exact lt_of_le_of_ne (not_lt.mp hlt) (Ne.symm heq)
          · exact hfirst id hid

/-- What is listed after a finding is taken in: the other rules as they were, and the rule of
the finding with the worse of what it had found and the finding. -/
theorem mem_raise {d : Diagnostic} {rules : List (String × Severity)} (h : Ascending rules)
    {q : String × Severity} (hq : q ∈ raise d rules) :
    q.1 ≠ d.rule ∧ q ∈ rules ∨ q = (d.rule, d.severity) ∧ d.rule ∉ rules.map (·.1) ∨
      ∃ worst, (d.rule, worst) ∈ rules ∧ q = (d.rule, worst.max d.severity) := by
  induction rules with
  | nil => exact Or.inr (Or.inl ⟨List.mem_singleton.mp hq, List.not_mem_nil⟩)
  | cons first rest ih =>
      obtain ⟨name, worst⟩ := first
      obtain ⟨hfirst, hrest⟩ := List.pairwise_cons.mp h
      have hother : ∀ q ∈ rest, name < q.1 := fun q hq => hfirst q.1 (List.mem_map_of_mem hq)
      unfold raise at hq
      by_cases hlt : d.rule < name
      · rw [if_pos hlt] at hq
        have habsent : ∀ q ∈ (name, worst) :: rest, d.rule < q.1 := by
          intro q hq
          rcases List.mem_cons.mp hq with rfl | hq
          · exact hlt
          · exact lt_trans hlt (hother q hq)
        rcases List.mem_cons.mp hq with rfl | hq
        · refine Or.inr (Or.inl ⟨rfl, fun hmem => ?_⟩)
          obtain ⟨q, hq, hname⟩ := List.mem_map.mp hmem
          exact absurd hname (ne_of_gt (habsent q hq))
        · exact Or.inl ⟨ne_of_gt (habsent q hq), hq⟩
      · by_cases heq : d.rule = name
        · rw [if_neg hlt, if_pos heq] at hq
          subst heq
          rcases List.mem_cons.mp hq with rfl | hq
          · exact Or.inr (Or.inr ⟨worst, List.mem_cons_self, rfl⟩)
          · exact Or.inl ⟨ne_of_gt (hother q hq), List.mem_cons_of_mem _ hq⟩
        · rw [if_neg hlt, if_neg heq] at hq
          rcases List.mem_cons.mp hq with rfl | hq
          · exact Or.inl ⟨Ne.symm heq, List.mem_cons_self⟩
          · rcases ih hrest hq with ⟨hne, hq⟩ | ⟨hq, hmem⟩ | ⟨worst', hmem, hq⟩
            · exact Or.inl ⟨hne, List.mem_cons_of_mem _ hq⟩
            · exact Or.inr (Or.inl ⟨hq, by simpa [heq] using hmem⟩)
            · exact Or.inr (Or.inr ⟨worst', List.mem_cons_of_mem _ hmem, hq⟩)

/-- The rules of a list of findings, each with the worst it found. -/
structure Ranks (rules : List (String × Severity)) (ds : List Diagnostic) : Prop where
  ascending : Ascending rules
  names : ∀ id, id ∈ rules.map (·.1) ↔ ∃ d ∈ ds, d.rule = id
  found : ∀ q ∈ rules, ∃ d ∈ ds, d.rule = q.1 ∧ d.severity = q.2
  worst : ∀ q ∈ rules, ∀ d ∈ ds, d.rule = q.1 → d.severity.rank ≤ q.2.rank

theorem Ranks.raise {rules : List (String × Severity)} {ds : List Diagnostic} (h : Ranks rules ds)
    (d : Diagnostic) : Ranks (raise d rules) (ds ++ [d]) where
  ascending := h.ascending.raise d
  names id := by
    rw [mem_names_raise, h.names]
    simp [or_and_right, exists_or, or_comm, eq_comm]
  found q hq := by
    rcases mem_raise h.ascending hq with ⟨-, hq⟩ | ⟨rfl, -⟩ | ⟨worst, hmem, rfl⟩
    · obtain ⟨e, he, hfound⟩ := h.found q hq
      exact ⟨e, List.mem_append_left _ he, hfound⟩
    · exact ⟨d, by simp, rfl, rfl⟩
    · obtain ⟨e, he, hrule, hseverity⟩ := h.found _ hmem
      rcases Severity.max_eq_or worst d.severity with hmax | hmax
      · exact ⟨e, List.mem_append_left _ he, hrule, hseverity.trans hmax.symm⟩
      · exact ⟨d, by simp, rfl, hmax.symm⟩
  worst q hq e he hrule := by
    rw [List.mem_append, List.mem_singleton] at he
    rcases mem_raise h.ascending hq with ⟨hne, hq⟩ | ⟨rfl, hnew⟩ | ⟨worst, hmem, rfl⟩
    · rcases he with he | rfl
      · exact h.worst q hq e he hrule
      · exact absurd hrule.symm hne
    · rcases he with he | rfl
      · exact absurd ((h.names _).mpr ⟨e, he, hrule⟩) hnew
      · exact Nat.le_refl _
    · rw [Severity.le_rank_max]
      rcases he with he | rfl
      · exact Or.inl (h.worst _ hmem e he hrule)
      · exact Or.inr (Nat.le_refl _)

theorem Ranks.foldl {rules : List (String × Severity)} {ds : List Diagnostic} (h : Ranks rules ds)
    (more : List Diagnostic) :
    Ranks (more.foldl (fun rules d => Sarif.raise d rules) rules) (ds ++ more) := by
  induction more generalizing rules ds with
  | nil => simpa using h
  | cons d more ih => simpa using ih (h.raise d)

theorem ranks_worstByRule (ds : List Diagnostic) : Ranks (worstByRule ds) ds := by
  have hempty : Ranks [] [] := ⟨List.Pairwise.nil, by simp, by simp, by simp⟩
  exact hempty.foldl ds

/-- A worse severity has no weaker level. -/
theorem Level.rank_ofSeverity_le {s t : Severity} (h : s.rank ≤ t.rank) :
    (ofSeverity s).rank ≤ (ofSeverity t).rank := by
  revert h
  cases s <;> cases t <;> decide

/-! ### The log and the report -/

/-- The result says what was found: the rule, the level of the severity, the file, the message,
and a fix exactly when there is a suggestion. -/
structure Finding.Describes (root : String) (f : Finding) (p : FileReport × Diagnostic) : Prop where
  ruleId : f.ruleId = p.2.rule
  level : f.level = Level.ofSeverity p.2.severity
  uri : f.uri = Files.Path.display root p.1.path
  text : f.text = p.2.message
  fixes_iff : f.fixes ≠ [] ↔ p.2.suggestion.isSome = true
  /-- the fix deletes the bytes of the span, and none of a reversed one -/
  fix : ∀ s, p.2.suggestion = some s → ∃ c, f.fixes = [c] ∧
    c.offset = s.replacement.span.start ∧
    (c.length : Int) = max ((s.replacement.span.stop : Int) - s.replacement.span.start) 0 ∧
    c.text = s.replacement.text

/-- The notification is about the file and says what is wrong with it. -/
structure Notification.Describes (root : String) (n : Notification) (file : FileReport) : Prop where
  uri : n.uri = Files.Path.display root file.path
  text : file.error = some n.text

/-- The document is complete and agrees with itself. -/
structure Document.Describes (doc : Document) (r : CheckReport) : Prop where
  /-- one result for each finding, in order -/
  results : List.Forall₂ (Finding.Describes r.root) doc.results r.findings
  /-- no rule is declared twice -/
  ascending : (doc.rules.map (·.id)).Pairwise (· < ·)
  rules : ∀ id, id ∈ doc.rules.map (·.id) ↔ ∃ p ∈ r.findings, p.2.rule = id
  declared : ∀ f ∈ doc.results, f.ruleId ∈ doc.rules.map (·.id)
  /-- the level of a rule is that of the worst it found -/
  level : ∀ rule ∈ doc.rules, ∃ p ∈ r.findings, p.2.rule = rule.id ∧
    rule.level = Level.ofSeverity p.2.severity ∧
    ∀ q ∈ r.findings, q.2.rule = rule.id → q.2.severity.rank ≤ p.2.severity.rank
  strongest : ∀ rule ∈ doc.rules, ∀ f ∈ doc.results, f.ruleId = rule.id →
    f.level.rank ≤ rule.level.rank
  /-- one notification for each file with an error, in order -/
  notifications : List.Forall₂ (Notification.Describes r.root) doc.notifications
    (r.files.filter (·.error.isSome))

theorem describes_finding (root : String) (p : FileReport × Diagnostic) :
    (Result.ofFinding root p.1 p.2).finding.Describes root p where
  ruleId := rfl
  level := rfl
  uri := rfl
  text := rfl
  fixes_iff := by
    cases hs : p.2.suggestion <;> simp [Result.finding, Result.ofFinding, hs]
  fix s hs := by
    refine ⟨Change.ofSuggestion s, ?_, rfl, ?_, rfl⟩
    · simp [Result.finding, Result.ofFinding, hs]
    · simp only [Change.ofSuggestion, Span.length]
      omega

/-- What is kept of every member stands beside the members it is kept of. -/
theorem forall₂_filterMap {α β : Type} {R : β → α → Prop} {f : α → Option β} {keep : α → Bool}
    (hkeep : ∀ a, keep a = (f a).isSome) (hR : ∀ a b, f a = some b → R b a) (l : List α) :
    List.Forall₂ R (l.filterMap f) (l.filter keep) := by
  induction l with
  | nil => exact .nil
  | cons a l ih =>
      cases hf : f a with
      | none =>
          rw [List.filterMap_cons_none hf, List.filter_cons_of_neg (by simp [hkeep, hf])]
          exact ih
      | some b =>
          rw [List.filterMap_cons_some hf, List.filter_cons_of_pos (by simp [hkeep, hf])]
          exact .cons (hR a b hf) ih

theorem ids_ofReport (r : CheckReport) : (Log.ofReport r).document.rules.map (·.id) =
    (worstByRule (r.findings.map (·.2))).map (·.1) := by
  rw [Log.document, Log.ofReport, List.map_map]
  rfl

/-- The rules of a report, each with the worst it found there. -/
theorem ranks_findings (r : CheckReport) :
    Ranks (worstByRule (r.findings.map (·.2))) (r.findings.map (·.2)) :=
  ranks_worstByRule _

theorem mem_ids_ofReport {r : CheckReport} {id : String} :
    id ∈ (Log.ofReport r).document.rules.map (·.id) ↔ ∃ p ∈ r.findings, p.2.rule = id := by
  rw [ids_ofReport, (ranks_findings r).names]
  simp only [List.mem_map, exists_exists_and_eq_and]

theorem mem_results_ofReport {r : CheckReport} {f : Finding}
    (h : f ∈ (Log.ofReport r).document.results) : ∃ p ∈ r.findings, f.Describes r.root p := by
  obtain ⟨result, hresult, rfl⟩ := List.mem_map.mp h
  obtain ⟨p, hp, rfl⟩ := List.mem_map.mp hresult
  exact ⟨p, hp, describes_finding r.root p⟩

theorem describes_ofReport (r : CheckReport) : (Log.ofReport r).document.Describes r where
  results := by
    simp only [Log.document, Log.ofReport, List.forall₂_map_left_iff, List.forall₂_same]
    intro p _
    exact describes_finding r.root p
  ascending := by
    rw [ids_ofReport]
    exact (ranks_findings r).ascending
  rules id := mem_ids_ofReport
  declared f hf := by
    obtain ⟨p, hp, hfp⟩ := mem_results_ofReport hf
    rw [mem_ids_ofReport, hfp.ruleId]
    exact ⟨p, hp, rfl⟩
  level rule hrule := by
    obtain ⟨q, hq, rfl⟩ := List.mem_map.mp hrule
    obtain ⟨d, hd, hname, hworst⟩ := (ranks_findings r).found q hq
    obtain ⟨p, hp, rfl⟩ := List.mem_map.mp hd
    refine ⟨p, hp, hname, by rw [hworst], fun p' hp' hname' => ?_⟩
    rw [hworst]
    exact (ranks_findings r).worst q hq _ (List.mem_map_of_mem hp') hname'
  strongest rule hrule f hf hname := by
    obtain ⟨q, hq, rfl⟩ := List.mem_map.mp hrule
    obtain ⟨p, hp, hfp⟩ := mem_results_ofReport hf
    rw [hfp.level]
    exact Level.rank_ofSeverity_le ((ranks_findings r).worst q hq _ (List.mem_map_of_mem hp)
      (hfp.ruleId ▸ hname))
  notifications := by
    refine forall₂_filterMap (fun file => by simp) ?_ r.files
    intro file n hn
    obtain ⟨text, htext, rfl⟩ := Option.map_eq_some_iff.mp hn
    exact ⟨rfl, htext⟩

/-- The log of a report can be read, and what is read is complete and agrees with itself. -/
theorem log_describes_report (r : CheckReport) (time : String) :
    ∃ doc, Document.ofJson? ((Log.ofReport r).toJson time) = some doc ∧ doc.Describes r :=
  ⟨_, Document.ofJson?_toJson _ time, describes_ofReport r⟩

end HookLint.Report.Sarif
