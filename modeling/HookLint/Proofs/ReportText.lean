/-
A report can be read back from its JSON text.

Each record is read field by field, and a field is found by its key among the members.  Members
that are left out when they are empty or absent are those whose fields have that value as their
default (`defaulted_pathsField`, `defaulted_map`), so leaving them out loses nothing.

Positions and counts are read into numbers of 64 or 32 bits; a report whose numbers are that
small (`Fits`) is read back as it was, and no other report is ever read.
-/
import HookLint.Diagnostic.Decode
import HookLint.Proofs.JsonText
import HookLint.Report.Format
import Mathlib.Data.List.Basic

namespace HookLint

open Json

/-! ### Sizes -/

/-- Offsets have 64 bits, lines and columns 32. -/
structure Span.Fits (s : Span) : Prop where
  start : s.start < limit64
  stop : s.stop < limit64
  startLine : s.startLine < limit32
  startColumn : s.startColumn < limit32
  stopLine : s.stopLine < limit32
  stopColumn : s.stopColumn < limit32

/-- The spans a finding names. -/
def Diagnostic.spans (d : Diagnostic) : List Span :=
  d.span :: (d.suggestion.map (·.replacement.span)).toList

def Counts.numbers (c : Counts) : List Nat :=
  [c.critical, c.high, c.medium, c.low, c.info, c.total, c.fixable]

/-- Every number of a report is one a machine word holds. -/
structure CheckReport.Fits (r : CheckReport) : Prop where
  analyzed : r.filesAnalyzed < limit64
  counts : ∀ n ∈ r.summary.numbers, n < limit64
  spans : ∀ f ∈ r.files, ∀ d ∈ f.diagnostics, ∀ s ∈ d.spans, s.Fits

/-! ### Fields -/

namespace Json

theorem natBelow?_nat {bound n : Nat} (h : n < bound) : natBelow? bound (nat n) = some n := by
  simp [natBelow?, nat, h]

theorem natBelow?_lt {bound n : Nat} {j : Json} (h : natBelow? bound j = some n) : n < bound := by
  unfold natBelow? at h
  split at h
  next m =>
    by_cases hm : m < bound
    · rw [if_pos hm, Option.some.injEq] at h
      rwa [← h]
    · rw [if_neg hm] at h
      contradiction
  next => contradiction

theorem required_eq_some {α : Type} {item : Json → Option α} {field : Option Json} {x : α}
    (h : required item field = some x) : ∃ j, item j = some x := by
  obtain ⟨j, -, hj⟩ := Option.bind_eq_some_iff.mp h
  exact ⟨j, hj⟩

theorem required_natBelow? {bound n : Nat} {field : Option Json}
    (h : required (natBelow? bound) field = some n) : n < bound := by
  obtain ⟨j, hj⟩ := required_eq_some h
  exact natBelow?_lt hj

theorem mapM_map {α β γ : Type} {print : α → γ} {item : γ → Option β} {result : α → β}
    {l : List α} (h : ∀ x ∈ l, item (print x) = some (result x)) :
    (l.map print).mapM item = some (l.map result) := by
  induction l with
  | nil => rfl
  | cons x l ih =>
      have hx := h x List.mem_cons_self
      have hl := ih fun y hy => h y (List.mem_cons_of_mem x hy)
      simp [List.mapM_cons, hx, hl]

theorem list?_map {α : Type} {print : α → Json} {item : Json → Option α} {l : List α}
    (h : ∀ x ∈ l, item (print x) = some x) : list? item (.array (l.map print)) = some l := by
  rw [list?, mapM_map h, List.map_id']

theorem defaulted_eq_some {α : Type} {item : Json → Option α} {field : Option Json} {x : α}
    (h : defaulted none (nullable? item) field = some (some x)) : ∃ j, item j = some x := by
  cases field with
  | none => simp [defaulted] at h
  | some j =>
      rw [defaulted, nullable?.eq_def] at h
      split at h
      next => simp at h
      next =>
        obtain ⟨y, hy, hxy⟩ := Option.map_eq_some_iff.mp h
        rw [Option.some.injEq] at hxy
        exact ⟨j, hxy ▸ hy⟩

/-- Each part of a list that reads is one that reads. -/
theorem exists_of_mem_list? {α : Type} {item : Json → Option α} {j : Json} {l : List α}
    (h : list? item j = some l) {x : α} (hx : x ∈ l) : ∃ i, item i = some x := by
  unfold list? at h
  split at h
  next items =>
    induction items generalizing l with
    | nil =>
        simp only [List.mapM_nil, Option.pure_def, Option.some.injEq] at h
        subst h
        contradiction
    | cons i items ih =>
        simp only [List.mapM_cons, Option.bind_eq_bind, Option.bind_eq_some_iff, Option.pure_def,
          Option.some.injEq] at h
        obtain ⟨y, hy, ys, hys, rfl⟩ := h
        rcases List.mem_cons.mp hx with rfl | hx
        · exact ⟨i, hy⟩
        · exact ih hx hys
  next => contradiction

/-- The members of a record, given its keys in order and what is under them. -/
def recordMembers (entries : List (String × Option Json)) : List (String × Json) :=
  entries.flatMap fun e => optional e.1 e.2

theorem filter_optional (key name : String) (value : Option Json) :
    (optional key value).filter (fun (k, _) => [name].contains k) =
      if key = name then optional key value else [] := by
  cases value <;> by_cases hkey : key = name <;> simp [optional, hkey]

/-- Members under other keys are not looked at. -/
theorem filter_recordMembers_of_notMem {entries : List (String × Option Json)} {name : String}
    (hname : name ∉ entries.map (·.1)) :
    (recordMembers entries).filter (fun (k, _) => [name].contains k) = [] := by
  induction entries with
  | nil => rfl
  | cons e entries ih =>
      rw [List.map_cons, List.mem_cons, not_or] at hname
      rw [recordMembers, List.flatMap_cons, List.filter_append, filter_optional,
        if_neg (Ne.symm hname.1)]
      exact ih hname.2

theorem filter_recordMembers {entries : List (String × Option Json)}
    (hkeys : (entries.map (·.1)).Nodup) {e : String × Option Json} (he : e ∈ entries) :
    (recordMembers entries).filter (fun (k, _) => [e.1].contains k) = optional e.1 e.2 := by
  induction entries with
  | nil => contradiction
  | cons d entries ih =>
      rw [List.map_cons, List.nodup_cons] at hkeys
      rw [recordMembers, List.flatMap_cons, List.filter_append, filter_optional]
      rcases List.mem_cons.mp he with rfl | he
      · rw [if_pos rfl]
        exact (congrArg _ (filter_recordMembers_of_notMem hkeys.1)).trans (List.append_nil _)
      · have hne : d.1 ≠ e.1 := by
          intro h
          rw [h] at hkeys
          exact hkeys.1 (List.mem_map_of_mem he)
        rw [if_neg hne]
        exact ih hkeys.2 he

/-- A record is read field by field, a field that is left out as an absent one. -/
theorem fields?_recordMembers {entries : List (String × Option Json)}
    (hkeys : (entries.map (·.1)).Nodup) (exact : Bool) :
    fields? exact (entries.map fun e => [e.1]) (.object (recordMembers entries)) =
      some (entries.map (·.2)) := by
  refine mapM_map ?_
  intro e he
  rw [member?, filter_recordMembers hkeys he]
  cases e.2 <;> rfl

end Json

/-! ### Records -/

theorem Span.ofJson?_toJson {s : Span} (h : s.Fits) : Span.ofJson? s.toJson = some s := by
  simp [Span.ofJson?, Span.toJson, fields?, member?, required, nat64?, nat32?, natBelow?_nat,
    h.start, h.stop, h.startLine, h.startColumn, h.stopLine, h.stopColumn]

theorem Span.fits_of_ofJson? {s : Span} {j : Json} (h : Span.ofJson? j = some s) : s.Fits := by
  unfold Span.ofJson? at h
  obtain ⟨fields, -, h⟩ := Option.bind_eq_some_iff.mp h
  split at h
  next =>
    simp only [Option.bind_eq_bind, Option.bind_eq_some_iff, Option.pure_def,
      Option.some.injEq] at h
    obtain ⟨_, hstart, _, hstop, _, hline, _, hcolumn, _, hstopLine, _, hstopColumn, rfl⟩ := h
    exact ⟨required_natBelow? hstart, required_natBelow? hstop, required_natBelow? hline,
      required_natBelow? hcolumn, required_natBelow? hstopLine, required_natBelow? hstopColumn⟩
  next => contradiction

theorem Suggestion.ofJson?_toJson {s : Suggestion} (h : s.replacement.span.Fits) :
    Suggestion.ofJson? s.toJson = some s := by
  simp [Suggestion.ofJson?, Suggestion.toJson, Replacement.ofJson?, Replacement.toJson, fields?,
    member?, required, string?, Span.ofJson?_toJson h]

theorem Replacement.fits_of_ofJson? {r : Replacement} {j : Json}
    (h : Replacement.ofJson? j = some r) : r.span.Fits := by
  unfold Replacement.ofJson? at h
  obtain ⟨fields, -, h⟩ := Option.bind_eq_some_iff.mp h
  split at h
  next =>
    simp only [Option.bind_eq_bind, Option.bind_eq_some_iff, Option.pure_def,
      Option.some.injEq] at h
    obtain ⟨_, hspan, _, -, rfl⟩ := h
    obtain ⟨i, hi⟩ := required_eq_some hspan
    exact Span.fits_of_ofJson? hi
  next => contradiction

theorem Suggestion.fits_of_ofJson? {s : Suggestion} {j : Json}
    (h : Suggestion.ofJson? j = some s) : s.replacement.span.Fits := by
  unfold Suggestion.ofJson? at h
  obtain ⟨fields, -, h⟩ := Option.bind_eq_some_iff.mp h
  split at h
  next =>
    simp only [Option.bind_eq_bind, Option.bind_eq_some_iff, Option.pure_def,
      Option.some.injEq] at h
    obtain ⟨_, -, _, hreplacement, rfl⟩ := h
    obtain ⟨i, hi⟩ := required_eq_some hreplacement
    exact Replacement.fits_of_ofJson? hi
  next => contradiction

theorem DiagnosticKind.ofJson?_toJson (k : DiagnosticKind) :
    DiagnosticKind.ofJson? k.toJson = some k := by
  cases k <;> simp [DiagnosticKind.ofJson?, DiagnosticKind.toJson, DiagnosticKind.tag,
    DiagnosticKind.details, DiagnosticKind.ofDetails?, fields?, member?, required, string?]

theorem Severity.ofJson?_name (s : Severity) : Severity.ofJson? (.string s.name) = some s := by
  cases s <;> rfl

/-- What is under the key of a list of paths. -/
def pathsField (paths : List String) : Option Json :=
  if paths.isEmpty then none else some (.strings paths)

theorem pathsMember_eq (key : String) (paths : List String) :
    pathsMember key paths = optional key (pathsField paths) := by
  by_cases hpaths : paths.isEmpty <;> simp [pathsMember, pathsField, Json.optional, hpaths]

/-- An empty list is left out, and is what an absent member stands for. -/
theorem defaulted_pathsField (paths : List String) :
    defaulted [] (list? string?) (pathsField paths) = some paths := by
  by_cases hpaths : paths.isEmpty
  · simp [pathsField, defaulted, List.isEmpty_iff.mp hpaths]
  · simp only [pathsField, hpaths, defaulted]
    exact list?_map fun x _ => rfl

/-- An absent value is left out, and is what an absent member stands for. -/
theorem defaulted_map {α : Type} {print : α → Json} {item : Json → Option α} {value : Option α}
    (h : ∀ x ∈ value, item (print x) = some x) (hnull : ∀ x, print x ≠ .null) :
    defaulted none (nullable? item) (value.map print) = some value := by
  cases value with
  | none => rfl
  | some x =>
      have hx := h x rfl
      have hne := hnull x
      simp only [Option.map_some, defaulted]
      rw [nullable?.eq_def]
      split
      next heq => exact absurd heq hne
      next => rw [hx, Option.map_some]

/-- The members of a finding. -/
def Diagnostic.entries (d : Diagnostic) : List (String × Option Json) :=
  [("rule", some (.string d.rule)), ("kind", some d.kind.toJson),
   ("hook_name", some (.string d.hookName)), ("missing", pathsField d.missing),
   ("unnecessary", pathsField d.unnecessary), ("duplicate", pathsField d.duplicate),
   ("message", some (.string d.message)), ("severity", some (.string d.severity.name)),
   ("span", some d.span.toJson), ("suggestion", d.suggestion.map Suggestion.toJson)]

theorem Diagnostic.toJson_eq (d : Diagnostic) : d.toJson = .object (recordMembers d.entries) := by
  simp [Diagnostic.toJson, Diagnostic.entries, recordMembers, pathsMember_eq, Json.optional]

theorem Diagnostic.fits_suggestion {d : Diagnostic} (h : ∀ s ∈ d.spans, s.Fits) {s : Suggestion}
    (hs : s ∈ d.suggestion) : s.replacement.span.Fits := by
  refine h _ (List.mem_cons_of_mem _ ?_)
  rw [hs]
  exact List.mem_singleton_self _

theorem Diagnostic.ofJson?_toJson {d : Diagnostic} (h : ∀ s ∈ d.spans, s.Fits) :
    Diagnostic.ofJson? d.toJson = some d := by
  have hspan : d.span.Fits := h d.span List.mem_cons_self
  have hdefaulted : defaulted none (nullable? Suggestion.ofJson?)
      (d.suggestion.map Suggestion.toJson) = some d.suggestion :=
    defaulted_map (fun s hs => Suggestion.ofJson?_toJson (d.fits_suggestion h hs))
      (by intro s; simp [Suggestion.toJson])
  have hkeys : (d.entries.map (·.1)).Nodup := by simp [Diagnostic.entries]
  have hfields := fields?_recordMembers hkeys true
  rw [← d.toJson_eq] at hfields
  simp only [Diagnostic.entries, List.map_cons, List.map_nil] at hfields
  simp [Diagnostic.ofJson?, hfields, required, string?, DiagnosticKind.ofJson?_toJson,
    defaulted_pathsField, Severity.ofJson?_name, Span.ofJson?_toJson hspan, hdefaulted]

theorem Diagnostic.fits_of_ofJson? {d : Diagnostic} {j : Json} (h : Diagnostic.ofJson? j = some d) :
    ∀ s ∈ d.spans, s.Fits := by
  unfold Diagnostic.ofJson? at h
  obtain ⟨fields, -, h⟩ := Option.bind_eq_some_iff.mp h
  split at h
  next =>
    simp only [Option.bind_eq_bind, Option.bind_eq_some_iff, Option.pure_def,
      Option.some.injEq] at h
    obtain ⟨_, -, _, -, _, -, _, -, _, -, _, -, _, -, _, -, _, hspan, _, hsuggestion, rfl⟩ := h
    intro s hs
    rcases List.mem_cons.mp hs with rfl | hs
    · obtain ⟨i, hi⟩ := required_eq_some hspan
      exact Span.fits_of_ofJson? hi
    · obtain ⟨suggestion, rfl, rfl⟩ := Option.map_eq_some_iff.mp (Option.mem_toList.mp hs)
      obtain ⟨i, hi⟩ := defaulted_eq_some hsuggestion
      exact Suggestion.fits_of_ofJson? hi
  next => contradiction

/-- The members of the report on a file. -/
def FileReport.entries (f : FileReport) : List (String × Option Json) :=
  [("path", some (.string f.path)),
   ("diagnostics", some (.array (f.diagnostics.map Diagnostic.toJson))),
   ("error", f.error.map .string)]

theorem FileReport.toJson_eq (f : FileReport) : f.toJson = .object (recordMembers f.entries) := by
  simp [FileReport.toJson, FileReport.entries, recordMembers, Json.optional]

theorem FileReport.ofJson?_toJson {f : FileReport}
    (h : ∀ d ∈ f.diagnostics, ∀ s ∈ d.spans, s.Fits) : FileReport.ofJson? f.toJson = some f := by
  have hdiagnostics : list? Diagnostic.ofJson? (.array (f.diagnostics.map Diagnostic.toJson)) =
      some f.diagnostics :=
    list?_map fun d hd => Diagnostic.ofJson?_toJson (h d hd)
  have herror : defaulted none (nullable? string?) (f.error.map .string) = some f.error :=
    defaulted_map (fun x _ => rfl) (by intro x; simp)
  have hkeys : (f.entries.map (·.1)).Nodup := by simp [FileReport.entries]
  have hfields := fields?_recordMembers hkeys true
  rw [← f.toJson_eq] at hfields
  simp only [FileReport.entries, List.map_cons, List.map_nil] at hfields
  simp [FileReport.ofJson?, hfields, required, string?, hdiagnostics, herror]

theorem FileReport.fits_of_ofJson? {f : FileReport} {j : Json} (h : FileReport.ofJson? j = some f) :
    ∀ d ∈ f.diagnostics, ∀ s ∈ d.spans, s.Fits := by
  unfold FileReport.ofJson? at h
  obtain ⟨fields, -, h⟩ := Option.bind_eq_some_iff.mp h
  split at h
  next =>
    simp only [Option.bind_eq_bind, Option.bind_eq_some_iff, Option.pure_def,
      Option.some.injEq] at h
    obtain ⟨_, -, _, hdiagnostics, _, -, rfl⟩ := h
    intro d hd
    obtain ⟨l, hl⟩ := required_eq_some hdiagnostics
    obtain ⟨i, hi⟩ := exists_of_mem_list? hl hd
    exact Diagnostic.fits_of_ofJson? hi
  next => contradiction

theorem Counts.ofJson?_toJson {c : Counts} (h : ∀ n ∈ c.numbers, n < limit64) :
    Counts.ofJson? c.toJson = some c := by
  simp only [Counts.numbers, List.forall_mem_cons] at h
  simp [Counts.ofJson?, Counts.toJson, fields?, member?, required, nat64?, natBelow?_nat, h]

theorem Counts.fits_of_ofJson? {c : Counts} {j : Json} (h : Counts.ofJson? j = some c) :
    ∀ n ∈ c.numbers, n < limit64 := by
  unfold Counts.ofJson? at h
  obtain ⟨fields, -, h⟩ := Option.bind_eq_some_iff.mp h
  split at h
  next =>
    simp only [Option.bind_eq_bind, Option.bind_eq_some_iff, Option.pure_def,
      Option.some.injEq] at h
    obtain ⟨_, hcritical, _, hhigh, _, hmedium, _, hlow, _, hinfo, _, htotal, _, hfixable, rfl⟩ := h
    simp only [Counts.numbers, List.forall_mem_cons]
    exact ⟨required_natBelow? hcritical, required_natBelow? hhigh, required_natBelow? hmedium,
      required_natBelow? hlow, required_natBelow? hinfo, required_natBelow? htotal,
      required_natBelow? hfixable, by simp⟩
  next => contradiction

namespace CheckReport

theorem ofJson?_toJson {r : CheckReport} (h : r.Fits) : ofJson? r.toJson = some r := by
  have hfiles : list? FileReport.ofJson? (.array (r.files.map FileReport.toJson)) = some r.files :=
    list?_map fun f hf => FileReport.ofJson?_toJson (h.spans f hf)
  simp [ofJson?, toJson, fields?, member?, required, string?, nat64?, natBelow?_nat h.analyzed,
    hfiles, Counts.ofJson?_toJson h.counts]

/-- Whatever is read as a report has numbers that fit. -/
theorem fits_of_ofJson? {r : CheckReport} {j : Json} (h : ofJson? j = some r) : r.Fits := by
  unfold ofJson? at h
  obtain ⟨fields, -, h⟩ := Option.bind_eq_some_iff.mp h
  split at h
  next =>
    simp only [Option.bind_eq_bind, Option.bind_eq_some_iff, Option.pure_def,
      Option.some.injEq] at h
    obtain ⟨_, -, _, hanalyzed, _, hfiles, _, hsummary, rfl⟩ := h
    obtain ⟨l, hl⟩ := required_eq_some hfiles
    obtain ⟨c, hc⟩ := required_eq_some hsummary
    refine ⟨required_natBelow? hanalyzed, Counts.fits_of_ofJson? hc, ?_⟩
    intro f hf
    obtain ⟨i, hi⟩ := exists_of_mem_list? hl hf
    exact FileReport.fits_of_ofJson? hi
  next => contradiction

end CheckReport

/-! ### Printing -/

theorem Json.isPlain_nat {n : Nat} (h : n < limit64) : (nat n).isPlain = true := by
  have hlow : -(signedLimit : Int) ≤ (n : Int) := by omega
  simpa [isPlain, nat, isInt64, hlow] using h

theorem Json.isPlain_string (s : String) : (string s).isPlain = true := by rw [isPlain]

theorem Json.isPlain_array_map {α : Type} {print : α → Json} {l : List α}
    (h : ∀ x ∈ l, (print x).isPlain = true) : (Json.array (l.map print)).isPlain = true := by
  rw [isPlain, arePlain_eq_all, List.all_eq_true]
  intro j hj
  obtain ⟨x, hx, rfl⟩ := List.mem_map.mp hj
  exact h x hx

/-- A record is plain when its fields are. -/
theorem Json.isPlain_recordMembers {entries : List (String × Option Json)}
    (h : ∀ e ∈ entries, ∀ j ∈ e.2, j.isPlain = true) :
    (Json.object (recordMembers entries)).isPlain = true := by
  rw [isPlain, havePlain_eq_all, List.all_eq_true]
  intro m hm
  obtain ⟨e, he, hme⟩ := List.mem_flatMap.mp hm
  cases hvalue : e.2 with
  | none => rw [hvalue] at hme; contradiction
  | some j =>
      rw [hvalue, Json.optional, List.mem_singleton] at hme
      rw [hme]
      exact h e he j hvalue

theorem Span.isPlain_toJson {s : Span} (h : s.Fits) : s.toJson.isPlain = true := by
  have hwide : ∀ n, n < limit32 → (nat n).isPlain = true := by
    intro n hn
    exact isPlain_nat (Nat.lt_trans hn (by decide))
  simp [Span.toJson, isPlain, havePlain, isPlain_nat h.start, isPlain_nat h.stop,
    hwide _ h.startLine, hwide _ h.startColumn, hwide _ h.stopLine, hwide _ h.stopColumn]

theorem DiagnosticKind.isPlain_toJson (k : DiagnosticKind) : k.toJson.isPlain = true := by
  cases k <;> simp [DiagnosticKind.toJson, DiagnosticKind.details, isPlain, havePlain]

theorem isPlain_pathsField (paths : List String) : ∀ j ∈ pathsField paths, j.isPlain = true := by
  intro j hj
  unfold pathsField at hj
  split at hj
  next => contradiction
  next =>
    obtain rfl : strings paths = j := Option.mem_some.mp hj
    exact isPlain_array_map fun x _ => isPlain_string x

theorem Suggestion.isPlain_toJson {s : Suggestion} (h : s.replacement.span.Fits) :
    s.toJson.isPlain = true := by
  simp [Suggestion.toJson, Replacement.toJson, isPlain, havePlain, Span.isPlain_toJson h]

theorem Diagnostic.isPlain_toJson {d : Diagnostic} (h : ∀ s ∈ d.spans, s.Fits) :
    d.toJson.isPlain = true := by
  have hspan : d.span.Fits := h d.span List.mem_cons_self
  have hsuggestion : ∀ s ∈ d.suggestion, s.toJson.isPlain = true := by
    intro s hs
    exact Suggestion.isPlain_toJson (d.fits_suggestion h hs)
  rw [d.toJson_eq]
  refine isPlain_recordMembers ?_
  have hmissing := isPlain_pathsField d.missing
  have hunnecessary := isPlain_pathsField d.unnecessary
  have hduplicate := isPlain_pathsField d.duplicate
  simp_all [Diagnostic.entries, isPlain_string, DiagnosticKind.isPlain_toJson,
    Span.isPlain_toJson hspan]

theorem FileReport.isPlain_toJson {f : FileReport}
    (h : ∀ d ∈ f.diagnostics, ∀ s ∈ d.spans, s.Fits) : f.toJson.isPlain = true := by
  have hdiagnostics : (Json.array (f.diagnostics.map Diagnostic.toJson)).isPlain = true :=
    isPlain_array_map fun d hd => Diagnostic.isPlain_toJson (h d hd)
  rw [f.toJson_eq]
  refine isPlain_recordMembers ?_
  simp [FileReport.entries, isPlain_string, hdiagnostics]

theorem Counts.isPlain_toJson {c : Counts} (h : ∀ n ∈ c.numbers, n < limit64) :
    c.toJson.isPlain = true := by
  simp only [Counts.numbers, List.forall_mem_cons] at h
  rw [Counts.toJson, isPlain]
  simp [havePlain, isPlain_nat, h]

namespace CheckReport

theorem isPlain_toJson {r : CheckReport} (h : r.Fits) : r.toJson.isPlain = true := by
  have hfiles : (Json.array (r.files.map FileReport.toJson)).isPlain = true :=
    isPlain_array_map fun f hf => FileReport.isPlain_toJson (h.spans f hf)
  rw [toJson, isPlain]
  simp [havePlain, isPlain_string, isPlain_nat h.analyzed, hfiles, Counts.isPlain_toJson h.counts]

end CheckReport

/-- A report is what its JSON text says. -/
theorem Report.json_read_back (r : CheckReport) (color : Bool) (time : String) :
    (Json.parse? (render .json color time r)).bind CheckReport.ofJson? = some r ↔ r.Fits := by
  constructor
  · intro h
    obtain ⟨j, -, hj⟩ := Option.bind_eq_some_iff.mp h
    exact CheckReport.fits_of_ofJson? hj
  · intro h
    rw [render, parse?_render (CheckReport.isPlain_toJson h), Option.bind_some]
    exact CheckReport.ofJson?_toJson h

end HookLint
