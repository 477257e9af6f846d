/-
Checking files in parallel.

Workers take files from a list, in any order.  A file is checked, then it is counted by
adding one to a counter that all workers share, then the new count is told; between two of
these steps any other worker may take one of its own.  `Step` is one such step and `Run` a
sequence of them, so a claim about every run is a claim about every schedule.

What a step keeps is `Sound`: the list stays the list that was given, each report is that of
its own path, and the numbers told or about to be told are the numbers counted so far.  A run
goes on as long as a file is left (`exists_step`) and takes four steps for each file
(`Run.left_add`), so every run ends, and what is found at its end is the report on the list
(`schedule_independent`).

Reports are put in order of path.  The order of paths is total, and two paths are level in it
only if they have the same components, so the order in which files are listed shows in the
report only where two spellings of one path are listed.
-/
import HookLint.Proofs.Tally
import HookLint.Rule.Engine
import Mathlib.Data.List.Basic
import Mathlib.Data.List.Perm.Basic

/-! ### The order of paths -/

namespace HookLint.Files

namespace Component

theorem le_total (a b : Component) : a.le b = true ∨ b.le a = true := by
  cases a <;> cases b <;> simp [le, rank, String.le_total]

theorem le_antisymm {a b : Component} (hab : a.le b = true) (hba : b.le a = true) : a = b := by
  cases a <;> cases b <;> simp_all [le, rank]
  exact String.le_antisymm hab hba

theorem le_trans {a b c : Component} (hab : a.le b = true) (hbc : b.le c = true) :
    a.le c = true := by
  cases a <;> cases b <;> cases c <;> simp_all [le, rank]
  exact String.le_trans hab hbc

end Component

namespace Path

theorem listLe_total (as bs : List Component) : listLe as bs = true ∨ listLe bs as = true := by
  induction as generalizing bs with
  | nil => exact Or.inl rfl
  | cons a as ih =>
      cases bs with
      | nil => exact Or.inr rfl
      | cons b bs =>
          by_cases hab : a = b
          · simpa [listLe, hab] using ih bs
          · simpa [listLe, hab, Ne.symm hab] using a.le_total b

theorem listLe_antisymm {as bs : List Component} (hab : listLe as bs = true)
    (hba : listLe bs as = true) : as = bs := by
  induction as generalizing bs with
  | nil =>
      cases bs with
      | nil => rfl
      | cons b bs => contradiction
  | cons a as ih =>
      cases bs with
      | nil => contradiction
      | cons b bs =>
          by_cases heq : a = b
          · subst heq
            simp only [listLe, if_pos] at hab hba
            rw [ih hab hba]
          · simp only [listLe, if_neg heq, if_neg (Ne.symm heq)] at hab hba
            exact absurd (Component.le_antisymm hab hba) heq

theorem listLe_trans {as bs cs : List Component} (hab : listLe as bs = true)
    (hbc : listLe bs cs = true) : listLe as cs = true := by
  induction as generalizing bs cs with
  | nil => rfl
  | cons a as ih =>
      cases bs with
      | nil => contradiction
      | cons b bs =>
          cases cs with
          | nil => contradiction
          | cons c cs =>
              simp only [listLe] at hab hbc ⊢
              by_cases hab' : a = b
              · subst hab'
                by_cases hac : a = c
                · simp only [hac, if_pos] at hab hbc ⊢
                  exact ih hab hbc
                · simpa [hac] using hbc
              · rw [if_neg hab'] at hab
                by_cases hbc' : b = c
                · subst hbc'
                  simpa [hab'] using hab
                · rw [if_neg hbc'] at hbc
                  by_cases hac : a = c
                  · subst hac
                    exact absurd (Component.le_antisymm hab hbc) hab'
                  · rw [if_neg hac]
                    exact Component.le_trans hab hbc

end Path

end HookLint.Files

namespace HookLint.Engine

open HookLint.Files

/-! ### Workers -/

/-- How far a file has come. -/
inductive Stage where
  | waiting
  /-- a worker has taken the file -/
  | taken
  | checked (report : FileReport)
  /-- the file was the one that brought the counter to `number` -/
  | counted (report : FileReport) (number : Nat)
  /-- the count has been told, and the worker is free again -/
  | done (report : FileReport)

namespace Stage

/-- A worker is at work on the file. -/
def isBusy : Stage → Bool
  | taken | checked _ | counted _ _ => true
  | waiting | done _ => false

def isDone : Stage → Bool
  | done _ => true
  | _ => false

/-- The counter counts the file. -/
def isCounted : Stage → Bool
  | counted _ _ | done _ => true
  | _ => false

def report? : Stage → Option FileReport
  | checked r | counted r _ | done r => some r
  | waiting | taken => none

/-- The count that is still to be told. -/
def number? : Stage → Option Nat
  | counted _ n => some n
  | _ => none

/-- How many steps are left. -/
def left : Stage → Nat
  | waiting => 4
  | taken => 3
  | checked _ => 2
  | counted _ _ => 1
  | done _ => 0

end Stage

/-- A listed file. -/
structure Job where
  path : String
  stage : Stage

/-- A call of whoever is told of the progress: a path, how many files are done, and of how
many. -/
structure Call where
  path : String
  done : Nat
  total : Nat

def Call.pair (c : Call) : Nat × Nat := (c.done, c.total)

/-- What the workers share. -/
structure Pool where
  /-- the listed files, in order of the list -/
  jobs : List Job
  completed : Nat
  /-- what has been told, in order of time -/
  calls : List Call

namespace Pool

/-- No file has been taken. -/
def start (files : List String) : Pool :=
  { jobs := files.map fun path => { path, stage := .waiting }, completed := 0, calls := [] }

/-- How many workers are at work. -/
def busy (jobs : List Job) : Nat := jobs.countP (·.stage.isBusy)

def isFinished (p : Pool) : Bool := p.jobs.all (·.stage.isDone)

/-- How many steps are left. -/
def left (p : Pool) : Nat := (p.jobs.map (·.stage.left)).sum

/-- The report on the files that have been checked. -/
def report (root : String) (p : Pool) : CheckReport :=
  CheckReport.ofFiles root
    ((p.jobs.filterMap (·.stage.report?)).mergeSort fun a b => Path.le a.path b.path)

end Pool

/-- One step of one of the workers. -/
inductive Step (check : String → FileReport) (workers : Nat) : Pool → Pool → Prop
  /-- A free worker takes a file. -/
  | take {before after : List Job} {path : String} {completed : Nat} {calls : List Call}
      (hfree : Pool.busy (before ++ ⟨path, .waiting⟩ :: after) < workers) :
      Step check workers ⟨before ++ ⟨path, .waiting⟩ :: after, completed, calls⟩
        ⟨before ++ ⟨path, .taken⟩ :: after, completed, calls⟩
  | check {before after : List Job} {path : String} {completed : Nat} {calls : List Call} :
      Step check workers ⟨before ++ ⟨path, .taken⟩ :: after, completed, calls⟩
        ⟨before ++ ⟨path, .checked (check path)⟩ :: after, completed, calls⟩
  /-- Adding to the counter and reading it are one step. -/
  | count {before after : List Job} {path : String} {r : FileReport} {completed : Nat}
      {calls : List Call} :
      Step check workers ⟨before ++ ⟨path, .checked r⟩ :: after, completed, calls⟩
        ⟨before ++ ⟨path, .counted r (completed + 1)⟩ :: after, completed + 1, calls⟩
  | tell {before after : List Job} {path : String} {r : FileReport} {number completed : Nat}
      {calls : List Call} :
      Step check workers ⟨before ++ ⟨path, .counted r number⟩ :: after, completed, calls⟩
        ⟨before ++ ⟨path, .done r⟩ :: after, completed,
          calls ++ [⟨path, number, (before ++ ⟨path, .done r⟩ :: after).length⟩]⟩

/-- A number of steps, one after the other. -/
inductive Run (check : String → FileReport) (workers : Nat) (p : Pool) : Nat → Pool → Prop
  | none : Run check workers p 0 p
  | step {n : Nat} {q r : Pool} (hrun : Run check workers p n q) (hstep : Step check workers q r) :
      Run check workers p (n + 1) r

variable {check : String → FileReport} {workers : Nat} {files : List String} {p q : Pool}

/-! ### What a step keeps -/

/-- What holds at all times of the workers' state, for a list of files. -/
structure Sound (check : String → FileReport) (files : List String) (p : Pool) : Prop where
  paths : p.jobs.map (·.path) = files
  reports : ∀ j ∈ p.jobs, ∀ r, j.stage.report? = some r → r = check j.path
  counted : p.completed = p.jobs.countP (·.stage.isCounted)
  /-- The numbers told and those still to be told are the numbers up to the counter. -/
  numbers : (p.calls.map (·.done) ++ p.jobs.filterMap (·.stage.number?)).Perm
    ((List.range p.completed).map (· + 1))
  told : (p.calls.map (·.path)).Perm ((p.jobs.filter (·.stage.isDone)).map (·.path))
  totals : ∀ c ∈ p.calls, c.total = files.length

theorem sound_start (check : String → FileReport) (files : List String) :
    Sound check files (.start files) := by
  refine ⟨?_, ?_, ?_, ?_, ?_, ?_⟩
  · simp [Pool.start, Function.comp_def]
  · simp [Pool.start, Stage.report?]
  · simp [Pool.start, List.countP_map, Function.comp_def, Stage.isCounted]
  · simp [Pool.start, List.filterMap_map, Stage.number?]
  · simp [Pool.start, List.filter_map, Function.comp_def, Stage.isDone]
  · simp [Pool.start]

section Replace

variable {before after : List Job} {path : String} {old new : Stage} {completed : Nat}
  {calls : List Call}

/-- The reports stay right when a file comes to a stage whose report is right. -/
theorem reports_replace
    (h : ∀ j ∈ before ++ ⟨path, old⟩ :: after, ∀ r, j.stage.report? = some r → r = check j.path)
    (hnew : ∀ r, new.report? = some r → old.report? = some r ∨ r = check path) :
    ∀ j ∈ before ++ ⟨path, new⟩ :: after, ∀ r, j.stage.report? = some r → r = check j.path := by
  intro j hj
  rcases List.mem_append.mp hj with hj | hj
  · exact h j (List.mem_append_left _ hj)
  · rcases List.mem_cons.mp hj with rfl | hj
    · intro r hr
      rcases hnew r hr with hold | hcheck
      · exact h ⟨path, old⟩ (List.mem_append_right _ List.mem_cons_self) r hold
      · exact hcheck
    · exact h j (List.mem_append_right _ (List.mem_cons_of_mem _ hj))

/-- A file that comes to its next stage without being counted or told of. -/
theorem sound_replace (h : Sound check files ⟨before ++ ⟨path, old⟩ :: after, completed, calls⟩)
    (hnew : ∀ r, new.report? = some r → old.report? = some r ∨ r = check path)
    (hcounted : old.isCounted = false ∧ new.isCounted = false) :
    Sound check files ⟨before ++ ⟨path, new⟩ :: after, completed, calls⟩ := by
  have hnumber : ∀ {s : Stage}, s.isCounted = false → s.number? = none ∧ s.isDone = false := by
    intro s hs
    cases s <;> simp_all [Stage.isCounted, Stage.number?, Stage.isDone]
  obtain ⟨hold, holdDone⟩ := hnumber hcounted.1
  obtain ⟨hnext, hnextDone⟩ := hnumber hcounted.2
  refine ⟨?_, reports_replace h.reports hnew, ?_, ?_, ?_, h.totals⟩
  · simpa using h.paths
  · simpa [hcounted] using h.counted
  · simpa [hold, hnext] using h.numbers
  · simpa [holdDone, hnextDone] using h.told

end Replace

theorem sound_step (h : Sound check files p) (hstep : Step check workers p q) :
    Sound check files q := by
  cases hstep with
  | take hfree => exact sound_replace h (by simp [Stage.report?]) ⟨rfl, rfl⟩
  | check => exact sound_replace h (by simp [Stage.report?]) ⟨rfl, rfl⟩
  | @count before after path r completed calls =>
      refine ⟨?_, reports_replace h.reports (by simp [Stage.report?]), ?_, ?_, ?_, h.totals⟩
      · simpa using h.paths
      · have hcounted := h.counted
        simp only [List.countP_append, List.countP_cons, Stage.isCounted] at hcounted ⊢
        simp only [Bool.false_eq_true, if_false, if_true] at hcounted ⊢
        omega
      · -- The number is new: it is the next one.
        have hnumbers := h.numbers
        simp only [List.filterMap_append, List.filterMap_cons, Stage.number?] at hnumbers ⊢
        rw [List.range_succ, List.map_append, ← List.append_assoc]
        refine List.perm_middle.trans ((List.perm_append_singleton _ _).symm.trans ?_)
        refine List.Perm.append_right _ ?_
        rwa [List.append_assoc]
      · simpa [Stage.isDone] using h.told
  | @tell before after path r number completed calls =>
      refine ⟨?_, reports_replace h.reports (by simp [Stage.report?]), ?_, ?_, ?_, ?_⟩
      · simpa using h.paths
      · simpa [Stage.isCounted] using h.counted
      · -- The number goes from those to be told to those told.
        have hnumbers := h.numbers
        simp only [List.filterMap_append, List.filterMap_cons, Stage.number?] at hnumbers ⊢
        refine List.Perm.trans ?_ hnumbers
        simp only [List.map_append, List.map_cons, List.map_nil, List.append_assoc,
          List.singleton_append]
        exact List.Perm.append_left _ List.perm_middle.symm
      · have htold := h.told
        simp only [List.filter_append, List.map_append] at htold ⊢
        rw [List.filter_cons_of_neg (by simp [Stage.isDone])] at htold
        rw [List.filter_cons_of_pos (by simp [Stage.isDone])]
        refine (htold.append_right _).trans ?_
        exact (List.perm_append_singleton _ _).trans List.perm_middle.symm
      · intro c hc
        rcases List.mem_append.mp hc with hc | hc
        · exact h.totals c hc
        · rw [List.mem_singleton.mp hc, ← h.paths]
          simp

/-! ### What a run keeps -/

theorem sound_run {n : Nat} (h : Run check workers (.start files) n p) : Sound check files p := by
  induction h with
  | none => exact sound_start check files
  | step _ hstep ih => exact sound_step ih hstep

theorem left_step (h : Step check workers p q) : q.left + 1 = p.left := by
  cases h <;> simp [Pool.left, Stage.left] <;> omega

/-- Each file takes four steps. -/
theorem Run.left_add {n : Nat} (h : Run check workers (.start files) n p) :
    p.left + n = 4 * files.length := by
  induction h with
  | none => simp [Pool.left, Pool.start, Function.comp_def, Stage.left, Nat.mul_comm]
  | step _ hstep ih =>
      have := left_step hstep
      omega

theorem Pool.left_eq_zero_iff (p : Pool) : p.left = 0 ↔ p.isFinished = true := by
  have hstage : ∀ s : Stage, s.left = 0 ↔ s.isDone = true := by
    intro s
    cases s <;> simp [Stage.left, Stage.isDone]
  simp [Pool.left, Pool.isFinished, List.sum_eq_zero_iff_forall_eq_nat, hstage]

/-- As long as a file is left, some worker can go on. -/
theorem exists_step (hworkers : 1 ≤ workers) (h : p.isFinished = false) :
    ∃ q, Step check workers p q := by
  obtain ⟨jobs, completed, calls⟩ := p
  by_cases hbusy : ∃ j ∈ jobs, j.stage.isBusy = true
  · obtain ⟨⟨path, stage⟩, hj, hstage⟩ := hbusy
    obtain ⟨before, after, rfl⟩ := List.append_of_mem hj
    cases stage with
    | waiting => contradiction
    | taken => exact ⟨_, .check⟩
    | checked r => exact ⟨_, .count⟩
    | counted r number => exact ⟨_, .tell⟩
    | done r => contradiction
  · -- All workers are free, and a file that is not done has not been taken.
    have hnone : Pool.busy jobs = 0 := by
      rw [Pool.busy, List.countP_eq_zero]
      intro j hj hstage
      exact hbusy ⟨j, hj, hstage⟩
    obtain ⟨⟨path, stage⟩, hj, hstage⟩ := List.all_eq_false.mp h
    cases stage with
    | waiting =>
        obtain ⟨before, after, rfl⟩ := List.append_of_mem hj
        exact ⟨_, .take (by omega)⟩
    | taken => exact absurd ⟨_, hj, rfl⟩ hbusy
    | checked r => exact absurd ⟨_, hj, rfl⟩ hbusy
    | counted r number => exact absurd ⟨_, hj, rfl⟩ hbusy
    | done r => exact absurd rfl hstage

/-! ### The end of a run -/

theorem stage_of_isFinished (h : p.isFinished = true) {j : Job} (hj : j ∈ p.jobs) :
    ∃ r, j.stage = .done r := by
  have hdone : j.stage.isDone = true := List.all_eq_true.mp h j hj
  cases hstage : j.stage with
  | done r => exact ⟨r, rfl⟩
  | _ => rw [hstage] at hdone; contradiction

/-- At the end there is the report of every listed path, in order of the list. -/
theorem reports_of_isFinished (h : Sound check files p) (hfinished : p.isFinished = true) :
    p.jobs.filterMap (·.stage.report?) = files.map check := by
  rw [← h.paths, List.map_map, ← List.filterMap_eq_map]
  refine List.filterMap_congr fun j hj => ?_
  obtain ⟨r, hr⟩ := stage_of_isFinished hfinished hj
  have hreport : j.stage.report? = some r := by rw [hr]; rfl
  rw [hreport, h.reports j hj r hreport]
  rfl

/-- At the end each number has been told once. -/
theorem calls_of_isFinished (h : Sound check files p) (hfinished : p.isFinished = true) :
    (p.calls.map Call.pair).Perm (progress files) := by
  have hpending : p.jobs.filterMap (·.stage.number?) = [] := by
    rw [List.filterMap_eq_nil_iff]
    intro j hj
    obtain ⟨r, hr⟩ := stage_of_isFinished hfinished hj
    rw [hr]
    rfl
  have hcompleted : p.completed = files.length := by
    rw [h.counted, ← h.paths, List.length_map, List.countP_eq_length]
    intro j hj
    obtain ⟨r, hr⟩ := stage_of_isFinished hfinished hj
    rw [hr]
    rfl
  have hnumbers := h.numbers
  rw [hpending, List.append_nil, hcompleted] at hnumbers
  have hpairs : p.calls.map Call.pair = (p.calls.map (·.done)).map fun n => (n, files.length) := by
    rw [List.map_map]
    refine List.map_congr_left fun c hc => ?_
    rw [Call.pair, h.totals c hc]
    rfl
  rw [hpairs]
  simpa [progress, Function.comp_def] using hnumbers.map fun n => (n, files.length)

theorem paths_of_isFinished (h : Sound check files p) (hfinished : p.isFinished = true) :
    (p.calls.map (·.path)).Perm files := by
  have hall : p.jobs.filter (·.stage.isDone) = p.jobs := by
    rw [List.filter_eq_self]
    exact List.all_eq_true.mp hfinished
  have htold := h.told
  rwa [hall, h.paths] at htold

/-! ### The report on a list of files -/

/-- A report has one entry for each listed path, in order of path, and counts what is in them. -/
structure ReportsOn (check : String → FileReport) (root : String) (files : List String)
    (r : CheckReport) : Prop where
  root : r.root = root
  entries : r.files.Perm (files.map check)
  sorted : r.files.Pairwise fun a b => Path.le a.path b.path = true
  analyzed : r.filesAnalyzed = files.length
  summary : r.summary.Tallies (files.flatMap fun path => (check path).diagnostics)

section CheckFiles

variable (e : Engine) (read : String → Except String String)
  (parse : String → String → Syntax.Tree) (root : String)

theorem path_checkFile (path : String) : (e.checkFile read parse path).path = path := by
  unfold checkFile
  split
  · rfl
  · split <;> rfl

theorem files_checkFiles (files : List String) :
    (e.checkFiles read parse root files).files.Perm (files.map (e.checkFile read parse)) :=
  List.mergeSort_perm _ _

theorem sorted_checkFiles (files : List String) :
    (e.checkFiles read parse root files).files.Pairwise
      fun a b => Path.le a.path b.path = true := by
  refine List.pairwise_mergeSort ?_ ?_ _
  · intro a b c hab hbc
    exact Path.listLe_trans hab hbc
  · intro a b
    rw [Bool.or_eq_true]
    exact Path.listLe_total _ _

theorem reportsOn_checkFiles (files : List String) :
    ReportsOn (e.checkFile read parse) root files (e.checkFiles read parse root files) where
  root := rfl
  entries := files_checkFiles e read parse root files
  sorted := sorted_checkFiles e read parse root files
  analyzed := by simp [checkFiles, CheckReport.ofFiles]
  summary := by
    have hentries := (files_checkFiles e read parse root files).flatMap_right (·.diagnostics)
    rw [List.flatMap_map] at hentries
    exact (Counts.tallies_ofDiagnostics _).perm hentries

/-- Reports that are level in the order are equal when no path is listed in two spellings, so
only one list of them is in order. -/
theorem checkFiles_perm {files files' : List String} (hperm : files'.Perm files)
    (hspelling : ∀ a ∈ files, ∀ b ∈ files, Path.components a = Path.components b → a = b) :
    e.checkFiles read parse root files' = e.checkFiles read parse root files := by
  have hfiles : (e.checkFiles read parse root files').files =
      (e.checkFiles read parse root files).files := by
    refine List.Perm.eq_of_pairwise ?_ (sorted_checkFiles e read parse root files')
      (sorted_checkFiles e read parse root files) ?_
    · intro a b ha hb hab hba
      rw [(files_checkFiles e read parse root _).mem_iff] at ha hb
      obtain ⟨pa, hpa, rfl⟩ := List.mem_map.mp ha
      obtain ⟨pb, hpb, rfl⟩ := List.mem_map.mp hb
      have hcomponents := Path.listLe_antisymm hab hba
      rw [path_checkFile, path_checkFile] at hcomponents
      rw [hspelling pa (hperm.mem_iff.mp hpa) pb hpb hcomponents]
    · exact (files_checkFiles e read parse root files').trans
        ((hperm.map _).trans (files_checkFiles e read parse root files).symm)
  exact congrArg (CheckReport.ofFiles root) hfiles

/-- However the workers take turns, the check comes to an end, with the report on the list and
with each number told once. -/
theorem schedule_independent {workers : Nat} (hworkers : 1 ≤ workers) (files : List String) :
    (∀ n p, Run (e.checkFile read parse) workers (.start files) n p →
      (n < 4 * files.length → ∃ q, Step (e.checkFile read parse) workers p q) ∧
      (n = 4 * files.length ↔ p.isFinished = true) ∧ n ≤ 4 * files.length ∧
      (p.isFinished = true →
        p.report root = e.checkFiles read parse root files ∧
        (p.calls.map Call.pair).Perm (progress files) ∧
        (p.calls.map (·.path)).Perm files)) ∧
    ReportsOn (e.checkFile read parse) root files (e.checkFiles read parse root files) ∧
    ∀ files' : List String, files'.Perm files →
      (∀ a ∈ files, ∀ b ∈ files, Path.components a = Path.components b → a = b) →
      e.checkFiles read parse root files' = e.checkFiles read parse root files := by
  refine ⟨?_, reportsOn_checkFiles e read parse root files, ?_⟩
  · intro n p hrun
    have hleft := hrun.left_add
    have hend := p.left_eq_zero_iff
    have hsound := sound_run hrun
    refine ⟨?_, ?_, by omega, ?_⟩
    · intro hn
      refine exists_step hworkers ?_
      rw [← Bool.not_eq_true, ← hend]
      omega
    · rw [← hend]
      omega
    · intro hfinished
      refine ⟨?_, calls_of_isFinished hsound hfinished, paths_of_isFinished hsound hfinished⟩
      rw [Pool.report, reports_of_isFinished hsound hfinished]
      rfl
  · intro files' hperm hspelling
    exact checkFiles_perm e read parse root hperm hspelling

end CheckFiles

/-- Nothing can be read. -/
def unreadable (_ : String) : Except String String := .error "No such file or directory"

def emptyTree (_ _ : String) : Syntax.Tree :=
  .node ⟨0, "program", .other, true, false, [], 0, 0⟩ []

/-- The second file is counted first and told of last. -/
theorem schedule_independent_overtaken :
    ∃ p, Run (checkFile ⟨[], .automatic⟩ unreadable emptyTree) 2 (.start ["b.js", "a.md"]) 8 p ∧
      p.calls.map Call.pair = [(2, 2), (1, 2)] ∧
      p.report "." = checkFiles ⟨[], .automatic⟩ unreadable emptyTree "." ["b.js", "a.md"] ∧
      checkFiles ⟨[], .automatic⟩ unreadable emptyTree "." ["a.md", "b.js"] =
        checkFiles ⟨[], .automatic⟩ unreadable emptyTree "." ["b.js", "a.md"] := by
  have hmain := schedule_independent ⟨[], .automatic⟩ unreadable emptyTree "."
    (show 1 ≤ 2 by decide) ["b.js", "a.md"]
  generalize checkFile ⟨[], .automatic⟩ unreadable emptyTree = check at hmain ⊢
  have htaken : Run check 2 (.start ["b.js", "a.md"]) 2
      ⟨[⟨"b.js", .taken⟩, ⟨"a.md", .taken⟩], 0, []⟩ :=
    .step (.step .none (@Step.take check 2 [] [⟨"a.md", .waiting⟩] "b.js" 0 [] (by decide)))
      (@Step.take check 2 [⟨"b.js", .taken⟩] [] "a.md" 0 [] (by decide))
  have hcounted : Run check 2 (.start ["b.js", "a.md"]) 6
      ⟨[⟨"b.js", .counted (check "b.js") 2⟩, ⟨"a.md", .counted (check "a.md") 1⟩], 2, []⟩ :=
    .step (.step (.step (.step htaken
      (@Step.check check 2 [⟨"b.js", .taken⟩] [] "a.md" 0 []))
      (@Step.count check 2 [⟨"b.js", .taken⟩] [] "a.md" (check "a.md") 0 []))
      (@Step.check check 2 [] [⟨"a.md", .counted (check "a.md") 1⟩] "b.js" 1 []))
      (@Step.count check 2 [] [⟨"a.md", .counted (check "a.md") 1⟩] "b.js" (check "b.js") 1 [])
  have htold : Run check 2 (.start ["b.js", "a.md"]) 8
      ⟨[⟨"b.js", .done (check "b.js")⟩, ⟨"a.md", .done (check "a.md")⟩], 2,
        [⟨"b.js", 2, 2⟩, ⟨"a.md", 1, 2⟩]⟩ :=
    .step (.step hcounted
      (@Step.tell check 2 [] [⟨"a.md", .counted (check "a.md") 1⟩] "b.js" _ 2 2 []))
      (@Step.tell check 2 [⟨"b.js", .done (check "b.js")⟩] [] "a.md" _ 1 2 [⟨"b.js", 2, 2⟩])
  refine ⟨_, htold, rfl, ((hmain.1 8 _ htold).2.2.2 rfl).1, hmain.2.2 _ (by decide) ?_⟩
  decide

end HookLint.Engine
