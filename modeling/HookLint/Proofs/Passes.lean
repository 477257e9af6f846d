/-
Passes of fixing.

A pass asks the checker about the text and makes what it suggests.  `fixWithin_cases` says
once what a pass can come to: the text stays, it changes, or a suggestion is misplaced.
Following the passes, what fixing says remains is what the checker finds in the text that it
leaves (`Ended`), and where it stopped before its last pass the suggestions that remain change
nothing, so fixing again does nothing.

For files, what fixing leaves on the disk is the text it reports (`fix_reports_output`).
-/
import HookLint.Command.Fix
import HookLint.Proofs.Disk
import HookLint.Proofs.Slices

namespace HookLint.Fix

/-! ### One pass -/

/-- What is suggested can be done, and turns the first text into the second. -/
def Makes (text : String) (found : List Diagnostic) (text' : String) : Prop :=
  ∃ outcome, apply text (replacements found) = .ok outcome ∧ outcome.text = text'

theorem apply_nil (text : String) : apply text [] = .ok { text, applied := 0, skipped := 0 } := by
  have hslice : Text.slice? text 0 (Text.byteLength text) = some text := by
    simpa using Text.slice?_append "" text ""
  unfold apply
  rw [List.mergeSort_nil, List.foldlM_nil]
  show Except.ok ((Progress.start text).finish text) = _
  simp [Progress.start, Progress.finish, hslice]

/-- Where nothing is suggested, nothing changes. -/
theorem makes_of_isEmpty {text : String} {found : List Diagnostic}
    (h : (replacements found).isEmpty = true) : Makes text found text := by
  rw [Makes, List.isEmpty_iff.mp h, apply_nil]
  exact ⟨_, rfl, rfl⟩

theorem Makes.unique {text t u : String} {found : List Diagnostic} (ht : Makes text found t)
    (hu : Makes text found u) : t = u := by
  obtain ⟨outcome, happly, rfl⟩ := ht
  obtain ⟨outcome', happly', rfl⟩ := hu
  rw [happly] at happly'
  injection happly' with h
  rw [h]

variable {check : Checker} {limit passes applied : Nat} {text : String}

/-- What the next pass can come to. -/
theorem fixWithin_cases (check : Checker) (limit passes applied : Nat) (text : String) :
    (Makes text (check passes text) text ∧ ∃ total,
      fixWithin check (limit + 1) passes applied text =
        .ok { text, applied := total, passes, remaining := check passes text }) ∨
    (∃ text' total, Makes text (check passes text) text' ∧ text' ≠ text ∧
      fixWithin check (limit + 1) passes applied text =
        fixWithin check limit (passes + 1) total text') ∨
    ∃ fault, apply text (replacements (check passes text)) = .error fault ∧
      fixWithin check (limit + 1) passes applied text = .error fault := by
  rw [fixWithin]
  by_cases hempty : (replacements (check passes text)).isEmpty = true
  · rw [if_pos hempty]
    exact Or.inl ⟨makes_of_isEmpty hempty, applied, rfl⟩
  · rw [if_neg hempty]
    cases happly : apply text (replacements (check passes text)) with
    | error fault => exact Or.inr (Or.inr ⟨fault, rfl, rfl⟩)
    | ok outcome =>
        by_cases hsame : outcome.text = text
        · refine Or.inl ⟨⟨outcome, happly, hsame⟩, applied + outcome.applied, ?_⟩
          exact if_pos hsame
        · refine Or.inr (Or.inl ⟨outcome.text, applied + outcome.applied, ⟨outcome, happly, rfl⟩,
            hsame, ?_⟩)
          exact if_neg hsame

/-! ### All passes -/

/-- Passes lead from a text to another and each of them changes it.  The numbers count the
passes made before the first and before the second text. -/
inductive Passes (check : Checker) : Nat → String → Nat → String → Prop
  | none (passes : Nat) (text : String) : Passes check passes text passes text
  | pass {passes last : Nat} {text text' final : String}
      (hmakes : Makes text (check passes text) text') (hne : text' ≠ text)
      (hrest : Passes check (passes + 1) text' last final) : Passes check passes text last final

/-- How fixing a text ends when it does not fail. -/
structure Ended (check : Checker) (limit passes : Nat) (text : String) (f : Fixed) : Prop where
  way : Passes check passes text f.passes f.text
  /-- What remains is what the checker finds in the text. -/
  remaining : f.remaining = check f.passes f.text
  /-- All passes were used, or there is nothing more to do. -/
  stopped : f.passes = passes + limit ∨
    f.passes < passes + limit ∧ Makes f.text f.remaining f.text

theorem ended_of_fixWithin {f : Fixed} (h : fixWithin check limit passes applied text = .ok f) :
    Ended check limit passes text f := by
  induction limit generalizing passes applied text with
  | zero =>
      injection h with h
      subst h
      exact ⟨.none passes text, rfl, Or.inl rfl⟩
  | succ limit ih =>
      rcases fixWithin_cases check limit passes applied text with
        ⟨hmakes, total, heq⟩ | ⟨text', total, hmakes, hne, heq⟩ | ⟨fault, -, heq⟩
      · rw [heq] at h
        injection h with h
        subst h
        exact ⟨.none passes text, rfl, Or.inr ⟨by simp, hmakes⟩⟩
      · obtain ⟨hway, hremaining, hstopped⟩ := ih (heq ▸ h)
        refine ⟨.pass hmakes hne hway, hremaining, ?_⟩
        rwa [show passes + 1 + limit = passes + (limit + 1) by omega] at hstopped
      · rw [heq] at h
        contradiction

/-- Fixing fails only where a suggestion is misplaced. -/
theorem misplaced_of_fixWithin {fault : Misplaced}
    (h : fixWithin check limit passes applied text = .error fault) :
    ∃ last final, Passes check passes text last final ∧
      apply final (replacements (check last final)) = .error fault := by
  induction limit generalizing passes applied text with
  | zero => contradiction
  | succ limit ih =>
      rcases fixWithin_cases check limit passes applied text with
        ⟨-, total, heq⟩ | ⟨text', total, hmakes, hne, heq⟩ | ⟨fault', happly, heq⟩
      · rw [heq] at h
        contradiction
      · obtain ⟨last, final, hway, happly⟩ := ih (heq ▸ h)
        exact ⟨last, final, .pass hmakes hne hway, happly⟩
      · rw [heq] at h
        injection h with h
        exact ⟨passes, text, .none passes text, h ▸ happly⟩

/-- What an engine finds in the texts of a file. -/
def engineChecker (engine : Engine) (parse : Nat → String → Syntax.Tree) (path : String) :
    Checker :=
  fun passes text => (engine.checkSource { path, source := text, tree := parse passes text }).diagnostics

/-- The file whose text has been fixed. -/
def FileFix.ofFixed (path source : String) (f : Fixed) : FileFix :=
  { path, source, fixed := f.text, applied := f.applied, remaining := f.remaining }

theorem fixSource_eq_ok_iff {engine : Engine} {parse : Nat → String → Syntax.Tree}
    {path source : String} {r : FileFix} :
    fixSource engine parse path source = .ok r ↔
      (Syntax.Language.ofPath? path).isSome = true ∧
        ∃ f, fixText (engineChecker engine parse path) source = .ok f ∧
          r = .ofFixed path source f := by
  unfold fixSource
  cases Syntax.Language.ofPath? path with
  | none => simp
  | some language =>
      dsimp only
      split
      · rename_i fault hfix
        have hchecker : fixText (engineChecker engine parse path) source = .error fault := hfix
        simp [hchecker]
      · rename_i f hfix
        have hchecker : fixText (engineChecker engine parse path) source = .ok f := hfix
        simp [hchecker, FileFix.ofFixed, eq_comm]

/-- Asks for another text in place of the first bytes. -/
def rewriting (stop : Nat) (text : String) : Diagnostic :=
  { rule := Dependency.ruleName, kind := .dependencyMismatch, hookName := "useEffect"
    missing := [], unnecessary := [], duplicate := [], message := "", severity := .high
    span := { (default : Span) with stop }
    suggestion := some { description := "", replacement := ⟨{ (default : Span) with stop }, text⟩ } }

/-- Asks for `x` and then for `y`. -/
def twoSteps (text : String) : List Diagnostic :=
  if text = "[]" then [rewriting 2 "[x]"]
  else if text = "[x]" then [rewriting 3 "[x, y]"]
  else []

theorem fixText_twoSteps : fixText (fun _ => twoSteps) "[]" =
    .ok { text := "[x, y]", applied := 2, passes := 2, remaining := [] } := by
  decide +kernel

end HookLint.Fix

/-! ### Files -/

namespace HookLint.Command

open HookLint.Files HookLint.Fix

variable {s : Session} {engine : Engine} {trial : Bool} {path source : String}

/-- The disk as fixing a file leaves it, whether that succeeds or not. -/
def diskAfter (s : Session) (engine : Engine) (trial : Bool) (path : String) : Disk :=
  match fixFile s engine trial path with
  | .ok (_, disk) => disk
  | .error _ => s.disk

/-- The disk goes from one file to the next as fixing the file leaves it. -/
theorem disk_add (s : Session) (engine : Engine) (trial : Bool) (root : String) (t : Tally)
    (path : String) :
    (t.add s engine trial root path).disk =
      diskAfter { s with disk := t.disk } engine trial path := by
  unfold Tally.add diskAfter
  cases fixFile { s with disk := t.disk } engine trial path with
  | error fault => rfl
  | ok out =>
      show (if out.1.isChanged then _ else _ : Tally).disk = out.2
      split <;> rfl

/-- What fixing a file leaves on the disk. -/
structure Kept (s : Session) (trial : Bool) (path : String) (r : FileFix) (disk : Disk) : Prop where
  /-- The file holds the text that is reported, or still holds its own. -/
  content : disk.read path = .ok (if trial then r.source else r.fixed)
  trial : trial = true → disk = s.disk
  others : ∀ q, s.disk.resolve path ≠ .ok q → disk.node? q = s.disk.node? q

section FixFile

variable (hread : s.disk.read path = .ok source)
include hread

theorem fixFile_of_error {fault : Fix.Failure}
    (hfix : fixSource engine (s.parse path) path source = .error fault) :
    fixFile s engine trial path = .error fault := by
  unfold fixFile
  rw [hread]
  show (fixSource engine (s.parse path) path source >>= fun _ => _) = _
  rw [hfix]
  rfl

variable {r : FileFix} (hfix : fixSource engine (s.parse path) path source = .ok r)
include hfix

theorem fixFile_of_ok :
    fixFile s engine trial path =
      if r.isChanged && !trial then
        ((s.disk.write path r.fixed).mapError fun o => .inaccessible path o.reason).map (r, ·)
      else .ok (r, s.disk) := by
  unfold fixFile
  rw [hread]
  show (fixSource engine (s.parse path) path source >>= fun _ => _) = _
  rw [hfix]
  show (if r.isChanged && !trial then _ else _) = _
  split
  · cases s.disk.write path r.fixed <;> rfl
  · rfl

theorem kept_of_fixFile {r' : FileFix} {disk : Disk}
    (h : fixFile s engine trial path = .ok (r', disk)) : r' = r ∧ Kept s trial path r disk := by
  have hsource : r.source = source := by
    obtain ⟨-, f, -, rfl⟩ := fixSource_eq_ok_iff.mp hfix
    rfl
  rw [fixFile_of_ok hread hfix] at h
  split at h
  · rename_i hwrites
    have htrial : trial = false := by simpa using (Bool.and_eq_true_iff.mp hwrites).2
    cases hwrite : s.disk.write path r.fixed with
    | error obstacle =>
        rw [hwrite] at h
        contradiction
    | ok disk' =>
        rw [hwrite] at h
        injection h with h
        injection h with hr hdisk
        subst hdisk
        obtain ⟨place, hwritten⟩ := Disk.written_of_write hwrite
        refine ⟨hr.symm, ?_, fun h => ?_, fun q hq => ?_⟩
        · rw [htrial]
          exact hwritten.read
        · rw [htrial] at h
          contradiction
        · have hne : q ≠ place := fun heq => hq (heq ▸ hwritten.resolved)
          rw [hwritten.node?, if_neg hne]
  · rename_i hidle
    injection h with h
    injection h with hr hdisk
    subst hdisk
    refine ⟨hr.symm, ?_, fun _ => rfl, fun _ _ => rfl⟩
    -- The text is the file's own, or it was not to be written.
    rw [hread, ← hsource]
    cases htrial : trial with
    | true => rfl
    | false =>
        have hsame : r.source = r.fixed := by simpa [htrial, FileFix.isChanged] using hidle
        exact congrArg Except.ok hsame

/-- A file of a directory that is read and can be fixed is fixed. -/
theorem exists_fixFile (hroot : s.disk.node? [] = some .directory) :
    ∃ disk, fixFile s engine trial path = .ok (r, disk) := by
  rw [fixFile_of_ok hread hfix]
  split
  · obtain ⟨disk, hwrite⟩ := Disk.exists_write hroot hread r.fixed
    rw [hwrite]
    exact ⟨disk, rfl⟩
  · exact ⟨s.disk, rfl⟩

end FixFile

/-- Fixing tells the truth: what it says remains is what is found in the text it gives, however
its passes ended, and that text is what the file holds afterwards.  A trial and a text that
cannot be fixed leave the disk alone. -/
theorem fix_reports_output :
    (∀ (check : String → List Diagnostic) (text : String),
      (∀ f, fixText (fun _ => check) text = .ok f →
        f.remaining = check f.text ∧ Ended (fun _ => check) maxPasses 0 text f) ∧
      ∀ fault, fixText (fun _ => check) text = .error fault →
        ∃ last final, Passes (fun _ => check) 0 text last final ∧
          apply final (replacements (check final)) = .error fault) ∧
    (∀ (engine : Engine) (parse : String → Syntax.Tree) (path source : String) (r : FileFix),
      fixSource engine (fun _ => parse) path source = .ok r →
        r.source = source ∧ r.remaining =
          (engine.checkSource { path, source := r.fixed, tree := parse r.fixed }).diagnostics) ∧
    ∀ (s : Session) (engine : Engine) (trial : Bool) (path source : String),
      s.disk.read path = .ok source →
        (∀ fault, fixSource engine (s.parse path) path source = .error fault →
          fixFile s engine trial path = .error fault ∧ diskAfter s engine trial path = s.disk) ∧
        (∀ r, fixSource engine (s.parse path) path source = .ok r →
          (∀ out, fixFile s engine trial path = .ok out →
            out.1 = r ∧ Kept s trial path r out.2 ∧ diskAfter s engine trial path = out.2) ∧
          (s.disk.node? [] = some .directory → ∃ disk, fixFile s engine trial path = .ok (r, disk))) ∧
        ∀ (root : String) (t : Tally), t.disk = s.disk →
          (t.add s engine trial root path).disk = diskAfter s engine trial path := by
  refine ⟨fun check text => ⟨fun f h => ?_, fun fault => misplaced_of_fixWithin⟩,
    fun engine parse path source r h => ?_,
    fun s engine trial path source hread => ⟨fun fault hfix => ?_, fun r hfix => ⟨fun out h => ?_,
      fun hroot => exists_fixFile hread hfix hroot⟩, fun root t ht => ?_⟩⟩
  · have hended := ended_of_fixWithin h
    exact ⟨hended.remaining, hended⟩
  · obtain ⟨-, f, hf, rfl⟩ := fixSource_eq_ok_iff.mp h
    exact ⟨rfl, (ended_of_fixWithin hf).remaining⟩
  · have herror : fixFile s engine trial path = .error fault := fixFile_of_error hread hfix
    refine ⟨herror, ?_⟩
    rw [diskAfter, herror]
  · obtain ⟨hr, hkept⟩ := kept_of_fixFile hread hfix h
    refine ⟨hr, hkept, ?_⟩
    rw [diskAfter, h]
  · rw [disk_add, ht]

/-- A project of one file. -/
def oneFile : Session where
  disk := { root := "/p", files := [(["a.js"], .text "[]")] }
  parse := fun _ _ _ => default
  time := ""
  elapsed := ""
  color := false

/-- The engine that finds what `twoSteps` does. -/
def twoStepsEngine : Engine where
  rules := [{ name := "", description := "", check := fun u _ => .found (twoSteps u.source) }]

theorem fix_reports_output_twoSteps :
    twoSteps "[x, y]" = [] ∧
      (diskAfter oneFile twoStepsEngine false "/p/a.js").read "/p/a.js" = .ok "[x, y]" := by
  obtain ⟨htext, -, hfile⟩ := fix_reports_output
  have hread : oneFile.disk.read "/p/a.js" = .ok "[]" := by decide +kernel
  have hfix : fixSource twoStepsEngine (oneFile.parse "/p/a.js") "/p/a.js" "[]" =
      .ok { path := "/p/a.js", source := "[]", fixed := "[x, y]", applied := 2, remaining := [] } := by
    decide +kernel
  obtain ⟨hkept, hexists⟩ := (hfile oneFile twoStepsEngine false "/p/a.js" "[]" hread).2.1 _ hfix
  obtain ⟨disk, hdisk⟩ := hexists (by decide)
  obtain ⟨-, hcontent, hafter⟩ := hkept _ hdisk
  refine ⟨((htext twoSteps "[]").1 _ fixText_twoSteps).1.symm, ?_⟩
  rw [hafter]
  exact hcontent.content

end HookLint.Command
