/-
What becomes of a list of replacements.

Replacements are taken in descending order, and one number is kept of those that were
made: the floor, where the last of them starts.  Below the floor the text is untouched,
so the next one is made when it ends there, and the pieces between the floor and it can be
cut out of the source.  `fates` says of each replacement whether it is made; everything
else is read off from that list.

  * Those that are made end where the one before them starts, so they do not overlap
    (`pairwise_made`), and the result is the source with their texts in their places
    (`Progress.Wrote`).
  * One that is skipped reaches above the floor.  It does not start after the last one
    that was made, so the two overlap (`overlaps_of_floor_lt`), also where spans are empty
    or start together: of those that start together the longer ones come first.
  * Editing a copy of the source in place gives the same, and no edit leaves the copy's
    bounds, though every offset is one of the source (`applyInPlace_eq`).
-/
import HookLint.Fix.Apply
import HookLint.Proofs.Slices
import HookLint.Proofs.Sorting
import Mathlib.Data.List.Pairwise

namespace HookLint.Fix

open HookLint.Text

variable {source : String} {r : Replacement} {rs : List Replacement}

/-! ### Places -/

/-- A replacement runs backwards, ends after the text, or starts or ends inside a character. -/
def IsMisplaced (source : String) (r : Replacement) : Prop :=
  r.span.stop < r.span.start ∨ byteLength source < r.span.stop ∨
    isBoundary source r.span.start = false ∨ isBoundary source r.span.stop = false

instance (source : String) (r : Replacement) : Decidable (IsMisplaced source r) :=
  inferInstanceAs (Decidable (_ ∨ _ ∨ _ ∨ _))

theorem checkPlace_eq_ok_iff : checkPlace source r = .ok () ↔ ¬ IsMisplaced source r := by
  unfold checkPlace IsMisplaced
  by_cases hback : r.span.stop < r.span.start
  · simp [hback]
  by_cases hafter : byteLength source < r.span.stop
  · simp [hafter]
  by_cases hstart : isBoundary source r.span.start = true
  · by_cases hstop : isBoundary source r.span.stop = true
    · simp [hback, hafter, hstart, hstop]
    · simp [hback, hafter, hstart, hstop]
  · simp [hback, hafter, hstart]

/-- What is replaced is a piece of the text. -/
theorem exists_slice?_of_place (h : checkPlace source r = .ok ()) :
    ∃ old, slice? source r.span.start r.span.stop = some old := by
  have hplace := checkPlace_eq_ok_iff.mp h
  simp only [IsMisplaced, not_or, Bool.not_eq_false, Nat.not_lt] at hplace
  exact exists_slice? hplace.1 hplace.2.2.1 hplace.2.2.2

theorem start_le_stop_of_place (h : checkPlace source r = .ok ()) : r.span.start ≤ r.span.stop := by
  obtain ⟨old, hold⟩ := exists_slice?_of_place h
  exact le_of_slice? hold

/-! ### The order in which replacements are taken -/

/-- `a` starts after `b`, or together with it and does not end before. -/
def TakenBefore (a b : Replacement) : Prop :=
  b.span.start < a.span.start ∨ b.span.start = a.span.start ∧ b.span.stop ≤ a.span.stop

theorem isTakenFirst_iff {a b : Replacement} : isTakenFirst a b = true ↔ TakenBefore a b := by
  unfold isTakenFirst TakenBefore
  split
  · rename_i h
    rw [decide_eq_true_eq]
    omega
  · rename_i h
    rw [decide_eq_true_eq]
    omega

theorem isTakenFirst_trans (a b c : Replacement) (hab : isTakenFirst a b = true)
    (hbc : isTakenFirst b c = true) : isTakenFirst a c = true := by
  rw [isTakenFirst_iff, TakenBefore] at *
  omega

theorem isTakenFirst_total (a b : Replacement) : (isTakenFirst a b || isTakenFirst b a) = true := by
  rw [Bool.or_eq_true, isTakenFirst_iff, isTakenFirst_iff, TakenBefore, TakenBefore]
  omega

/-- `order` has the replacements of `rs` from the last start to the first, those that start together
from the last stop to the first, and those of one range as they stand in `rs`. -/
structure Descending (rs order : List Replacement) : Prop where
  perm : order.Perm rs
  sorted : order.Pairwise TakenBefore
  stable : ∀ start stop,
    order.filter (fun r => r.span.start == start && r.span.stop == stop) =
      rs.filter (fun r => r.span.start == start && r.span.stop == stop)

theorem descending_mergeSort (rs : List Replacement) : Descending rs (rs.mergeSort isTakenFirst) := by
  have hperm := List.mergeSort_perm rs isTakenFirst
  refine ⟨hperm, ?_, fun start stop => ?_⟩
  · have hsorted := List.pairwise_mergeSort isTakenFirst_trans isTakenFirst_total rs
    exact hsorted.imp fun h => isTakenFirst_iff.mp h
  · refine Sorting.filter_mergeSort isTakenFirst_trans isTakenFirst_total (fun a b ha hb => ?_) rs
    simp only [Bool.and_eq_true, beq_iff_eq] at ha hb
    rw [isTakenFirst_iff, TakenBefore]
    omega

/-! ### What is made and what is skipped -/

/-- What becomes of a replacement. -/
inductive Fate where
  | made
  | skipped
  deriving DecidableEq, Repr

/-- What becomes of replacements that are taken in this order while the text is untouched up to
`floor`. -/
def fates (floor : Nat) : List Replacement → List (Replacement × Fate)
  | [] => []
  | r :: rs =>
    if floor < r.span.stop then (r, .skipped) :: fates floor rs
    else (r, .made) :: fates r.span.start rs

/-- The replacements with one fate. -/
def withFate (fate : Fate) (judged : List (Replacement × Fate)) : List Replacement :=
  (judged.filter (·.2 == fate)).map (·.1)

theorem mem_withFate {fate : Fate} {judged : List (Replacement × Fate)} :
    r ∈ withFate fate judged ↔ (r, fate) ∈ judged := by
  unfold withFate
  simp only [List.mem_map, List.mem_filter, beq_iff_eq]
  constructor
  · rintro ⟨⟨a, f⟩, ⟨hmem, rfl⟩, rfl⟩
    exact hmem
  · intro hmem
    exact ⟨(r, fate), ⟨hmem, rfl⟩, rfl⟩

theorem withFate_cons_self (r : Replacement) (fate : Fate) (judged : List (Replacement × Fate)) :
    withFate fate ((r, fate) :: judged) = r :: withFate fate judged := by
  simp [withFate]

theorem withFate_cons_of_ne (r : Replacement) {fate other : Fate} (h : other ≠ fate)
    (judged : List (Replacement × Fate)) :
    withFate fate ((r, other) :: judged) = withFate fate judged := by
  simp [withFate, h]

theorem length_made_add_skipped (judged : List (Replacement × Fate)) :
    (withFate .made judged).length + (withFate .skipped judged).length = judged.length := by
  induction judged with
  | nil => rfl
  | cons x judged ih =>
      obtain ⟨r, fate⟩ := x
      cases fate with
      | made =>
          rw [withFate_cons_self, withFate_cons_of_ne r (by simp)]
          simp only [List.length_cons]
          omega
      | skipped =>
          rw [withFate_cons_self, withFate_cons_of_ne r (by simp)]
          simp only [List.length_cons]
          omega

theorem fates_of_lt {floor : Nat} (h : floor < r.span.stop) :
    fates floor (r :: rs) = (r, .skipped) :: fates floor rs := by
  rw [fates, if_pos h]

theorem fates_of_le {floor : Nat} (h : r.span.stop ≤ floor) :
    fates floor (r :: rs) = (r, .made) :: fates r.span.start rs := by
  rw [fates, if_neg (Nat.not_lt.mpr h)]

theorem map_fst_fates : ∀ (rs : List Replacement) (floor : Nat), (fates floor rs).map (·.1) = rs := by
  intro rs
  induction rs with
  | nil => intro floor; rfl
  | cons r rs ih =>
      intro floor
      by_cases h : floor < r.span.stop
      · rw [fates_of_lt h, List.map_cons, ih]
      · rw [fates_of_le (Nat.not_lt.mp h), List.map_cons, ih]

/-- What is made ends at the floor or below, and each ends where the one before it starts or
below. -/
theorem pairwise_made : ∀ {rs : List Replacement} {floor : Nat},
    (∀ r ∈ rs, r.span.start ≤ r.span.stop) →
      (∀ a ∈ withFate .made (fates floor rs), a.span.stop ≤ floor) ∧
      (withFate .made (fates floor rs)).Pairwise fun a b => b.span.stop ≤ a.span.start := by
  intro rs
  induction rs with
  | nil =>
      intro floor _
      simp [fates, withFate]
  | cons r rs ih =>
      intro floor hforward
      obtain ⟨hr, hrs⟩ := List.forall_mem_cons.mp hforward
      by_cases h : floor < r.span.stop
      · rw [fates_of_lt h, withFate_cons_of_ne r (by simp)]
        exact ih hrs
      · rw [fates_of_le (Nat.not_lt.mp h), withFate_cons_self]
        obtain ⟨hbelow, hpairwise⟩ := @ih r.span.start hrs
        refine ⟨?_, List.pairwise_cons.mpr ⟨hbelow, hpairwise⟩⟩
        intro a ha
        rcases List.mem_cons.mp ha with rfl | ha
        · omega
        · have := hbelow a ha
          omega

/-- A replacement that reaches above the start of one taken before it overlaps that one. -/
theorem overlaps_of_floor_lt {a : Replacement} (hforward : a.span.start ≤ a.span.stop)
    (horder : TakenBefore a r) (h : a.span.start < r.span.stop) :
    r.span.overlaps a.span = true := by
  unfold TakenBefore at horder
  simp only [Span.overlaps, Bool.and_eq_true, decide_eq_true_eq]
  omega

/-- What is skipped overlaps a replacement that was made before it.  Of the replacements still to be
taken, those that reach above the floor overlap one of `done`. -/
theorem overlaps_of_skipped : ∀ {rs done : List Replacement} {floor : Nat}
    {before after : List (Replacement × Fate)},
    (∀ r ∈ rs, r.span.start ≤ r.span.stop) → rs.Pairwise TakenBefore →
    (∀ r ∈ rs, floor < r.span.stop → ∃ a ∈ done, r.span.overlaps a.span = true) →
    fates floor rs = before ++ (r, .skipped) :: after →
      ∃ a, (a ∈ done ∨ a ∈ withFate .made before) ∧ r.span.overlaps a.span = true := by
  intro rs
  induction rs with
  | nil =>
      intro done floor before after _ _ _ hsplit
      simp [fates] at hsplit
  | cons x rs ih =>
      intro done floor before after hforward hsorted hdone hsplit
      obtain ⟨hx, hrs⟩ := List.forall_mem_cons.mp hforward
      obtain ⟨hfirst, hsorted⟩ := List.pairwise_cons.mp hsorted
      obtain ⟨hdonex, hdone⟩ := List.forall_mem_cons.mp hdone
      by_cases h : x.span.stop ≤ floor
      · -- `x` is made, and whatever comes later and reaches above its start overlaps it.
        rw [fates_of_le h] at hsplit
        cases before with
        | nil => simp at hsplit
        | cons y before =>
            obtain ⟨rfl, htail⟩ := List.cons.inj hsplit
            have hnext : ∀ r ∈ rs, x.span.start < r.span.stop →
                ∃ a ∈ x :: done, r.span.overlaps a.span = true := fun r hr hlt =>
              ⟨x, List.mem_cons_self, overlaps_of_floor_lt hx (hfirst r hr) hlt⟩
            obtain ⟨a, ha, hoverlaps⟩ := ih hrs hsorted hnext htail
            refine ⟨a, ?_, hoverlaps⟩
            rw [withFate_cons_self, List.mem_cons]
            rw [List.mem_cons] at ha
            tauto
      · rw [fates_of_lt (Nat.not_le.mp h)] at hsplit
        cases before with
        | nil =>
            obtain ⟨hhead, -⟩ := List.cons.inj hsplit
            obtain ⟨rfl, -⟩ := Prod.mk.inj hhead
            obtain ⟨a, ha, hoverlaps⟩ := hdonex (Nat.not_le.mp h)
            exact ⟨a, Or.inl ha, hoverlaps⟩
        | cons y before =>
            obtain ⟨rfl, htail⟩ := List.cons.inj hsplit
            rw [withFate_cons_of_ne x (by simp)]
            exact ih hrs hsorted hdone htail

/-! ### The text that is written -/

/-- The source from `start` on with what `fill` gives in the places of replacements that stand in
ascending order; none where a place or what lies between two is no piece of the source. -/
def weave (source : String) (fill : Replacement → Option String) (start : Nat) :
    List Replacement → Option String
  | [] => sliceFrom? source start
  | r :: rs => do
    let before ← slice? source start r.span.start
    let new ← fill r
    let rest ← weave source fill r.span.stop rs
    return before ++ new ++ rest

theorem weave_cons {fill : Replacement → Option String} {start : Nat} {before new rest : String}
    (hbefore : slice? source start r.span.start = some before) (hnew : fill r = some new)
    (hrest : weave source fill r.span.stop rs = some rest) :
    weave source fill start (r :: rs) = some (before ++ new ++ rest) := by
  rw [weave, hbefore, hnew, hrest]
  rfl

theorem of_weave_cons {fill : Replacement → Option String} {start : Nat} {text : String}
    (h : weave source fill start (r :: rs) = some text) :
    ∃ before rest, slice? source start r.span.start = some before ∧
      weave source fill r.span.stop rs = some rest := by
  simp only [weave, Option.bind_eq_bind, Option.bind_eq_some_iff] at h
  obtain ⟨before, hbefore, new, -, rest, hrest, -⟩ := h
  exact ⟨before, rest, hbefore, hrest⟩

/-- With what stood there in their places the source is as it was. -/
theorem weave_source {fill : Replacement → Option String} :
    ∀ {rs : List Replacement} {start : Nat} {text : String},
      (∀ r ∈ rs, checkPlace source r = .ok ()) → weave source fill start rs = some text →
      weave source (fun r => slice? source r.span.start r.span.stop) start rs =
        sliceFrom? source start := by
  intro rs
  induction rs with
  | nil => intro start text _ _; rfl
  | cons r rs ih =>
      intro start text hplaces h
      obtain ⟨hr, hrs⟩ := List.forall_mem_cons.mp hplaces
      obtain ⟨before, rest, hbefore, hrest⟩ := of_weave_cons h
      obtain ⟨old, hold⟩ := exists_slice?_of_place hr
      obtain ⟨after, hafter⟩ := exists_slice? (le_byteLength_of_isBoundary (isBoundary_stop hold))
        (isBoundary_stop hold) (isBoundary_byteLength source)
      rw [weave_cons hbefore hold ((ih hrs hrest).trans hafter)]
      exact (slice?_join (slice?_join hbefore hold) hafter).symm

namespace Progress

variable {p : Progress}

theorem step_of_error {fault : Misplaced} (h : checkPlace source r = .error fault) :
    p.step source r = .error fault := by
  unfold step
  rw [h]
  rfl

theorem step_of_lt (hplace : checkPlace source r = .ok ()) (h : p.floor < r.span.stop) :
    p.step source r = .ok { p with skipped := p.skipped + 1 } := by
  unfold step
  rw [hplace]
  show (if p.floor < r.span.stop then _ else _) = _
  rw [if_pos h]
  rfl

theorem step_of_le {between : String} (hplace : checkPlace source r = .ok ())
    (h : r.span.stop ≤ p.floor) (hbetween : slice? source r.span.stop p.floor = some between) :
    p.step source r = .ok {
      floor := r.span.start, done := r.text ++ between ++ p.done
      applied := p.applied + 1, skipped := p.skipped } := by
  unfold step
  rw [hplace]
  show (if p.floor < r.span.stop then _ else _) = _
  rw [if_neg (Nat.not_lt.mpr h), hbetween]
  rfl

/-- What is done is the source above the floor with the texts of `made` in their places. -/
structure Wrote (source : String) (made : List Replacement) (p : Progress) : Prop where
  boundary : isBoundary source p.floor = true
  woven : ∀ start before, slice? source start p.floor = some before →
    weave source (fun r => some r.text) start made.reverse = some (before ++ p.done)

theorem wrote_start (source : String) : Wrote source [] (start source) := by
  refine ⟨isBoundary_byteLength source, fun start before hbefore => ?_⟩
  show sliceFrom? source start = some (before ++ "")
  rw [String.append_empty]
  exact hbefore

/-- Between a replacement and the floor above it lies a piece of the source. -/
theorem exists_between (hfloor : isBoundary source p.floor = true)
    (hplace : checkPlace source r = .ok ()) (h : r.span.stop ≤ p.floor) :
    ∃ between, slice? source r.span.stop p.floor = some between := by
  obtain ⟨old, hold⟩ := exists_slice?_of_place hplace
  exact exists_slice? h (isBoundary_stop hold) hfloor

theorem Wrote.step {made : List Replacement} {between : String} (hp : p.Wrote source made)
    (hplace : checkPlace source r = .ok ())
    (hbetween : slice? source r.span.stop p.floor = some between) :
    Wrote source (made ++ [r]) {
      floor := r.span.start, done := r.text ++ between ++ p.done
      applied := p.applied + 1, skipped := p.skipped } := by
  obtain ⟨old, hold⟩ := exists_slice?_of_place hplace
  refine ⟨isBoundary_start hold, fun start before hbefore => ?_⟩
  rw [List.reverse_append, List.reverse_singleton, List.singleton_append]
  rw [weave_cons hbefore rfl (hp.woven _ _ hbetween)]
  simp only [String.append_assoc]

/-- Where every replacement is a piece of the text, all are taken, and `fates` says which are
made. -/
theorem foldlM_step : ∀ {rs made : List Replacement} {p : Progress},
    (∀ r ∈ rs, checkPlace source r = .ok ()) → p.Wrote source made →
    ∃ q, rs.foldlM (Progress.step source) p = .ok q ∧
      q.Wrote source (made ++ withFate .made (fates p.floor rs)) ∧
      q.applied = p.applied + (withFate .made (fates p.floor rs)).length ∧
      q.skipped = p.skipped + (withFate .skipped (fates p.floor rs)).length := by
  intro rs
  induction rs with
  | nil =>
      intro made p _ hp
      refine ⟨p, rfl, ?_, rfl, rfl⟩
      simpa [fates, withFate] using hp
  | cons r rs ih =>
      intro made p hplaces hp
      obtain ⟨hr, hrs⟩ := List.forall_mem_cons.mp hplaces
      rw [List.foldlM_cons]
      by_cases h : r.span.stop ≤ p.floor
      · obtain ⟨between, hbetween⟩ := exists_between hp.boundary hr h
        obtain ⟨q, hq, hwrote, happlied, hskipped⟩ := ih hrs (hp.step hr hbetween)
        rw [step_of_le hr h hbetween, fates_of_le h, withFate_cons_self,
          withFate_cons_of_ne r (by simp)]
        refine ⟨q, hq, ?_, ?_, hskipped⟩
        · rwa [List.append_assoc] at hwrote
        · rw [happlied, List.length_cons]
          simp only
          omega
      · obtain ⟨q, hq, hwrote, happlied, hskipped⟩ :=
          @ih made { p with skipped := p.skipped + 1 } hrs ⟨hp.boundary, hp.woven⟩
        rw [step_of_lt hr (Nat.not_le.mp h), fates_of_lt (Nat.not_le.mp h), withFate_cons_self,
          withFate_cons_of_ne r (by simp)]
        refine ⟨q, hq, hwrote, happlied, ?_⟩
        rw [hskipped, List.length_cons]
        simp only
        omega

theorem foldlM_of_error {fault : Misplaced} (h : checkPlace source r = .error fault) :
    ∀ {rs : List Replacement} {p : Progress}, r ∈ rs →
      ∃ fault, rs.foldlM (Progress.step source) p = .error fault := by
  intro rs
  induction rs with
  | nil => intro p hr; contradiction
  | cons x rs ih =>
      intro p hr
      rw [List.foldlM_cons]
      cases hstep : p.step source x with
      | error fault' => exact ⟨fault', rfl⟩
      | ok q =>
          rcases List.mem_cons.mp hr with rfl | hr
          · rw [step_of_error h] at hstep
            contradiction
          · exact ih hr

end Progress

/-! ### The outcome -/

/-- What becomes of a list of replacements, in the order in which they are taken, and of the
text. -/
structure CarriedOut (source : String) (rs : List Replacement) (judged : List (Replacement × Fate))
    (out : Applied) : Prop where
  order : Descending rs (judged.map (·.1))
  applied : out.applied = (withFate .made judged).length
  skipped : out.skipped = (withFate .skipped judged).length
  apart : (withFate .made judged).Pairwise fun a b => a.span.overlaps b.span = false
  /-- What is skipped overlaps a replacement that was made before it. -/
  blocked : ∀ before r after, judged = before ++ (r, .skipped) :: after →
    ∃ a ∈ withFate .made before, r.span.overlaps a.span = true
  /-- The text has the new texts in the places of what was made, and the source between them. -/
  text : weave source (fun r => some r.text) 0 (withFate .made judged).reverse = some out.text
  /-- With what stood in these places the same pieces are the source. -/
  kept : weave source (fun r => slice? source r.span.start r.span.stop) 0
    (withFate .made judged).reverse = some source

theorem apply_eq_ok_iff {out : Applied} : apply source rs = .ok out ↔
    ∃ last, (rs.mergeSort isTakenFirst).foldlM (Progress.step source) (.start source) = .ok last ∧
      last.finish source = out := by
  unfold apply
  cases (rs.mergeSort isTakenFirst).foldlM (Progress.step source) (.start source) with
  | error fault => simp [bind, Except.bind]
  | ok last => simp [bind, Except.bind, pure, Except.pure]

theorem finish_text {p : Progress} {before : String} (h : slice? source 0 p.floor = some before) :
    (p.finish source).text = before ++ p.done := by
  rw [Progress.finish, h]
  rfl

/-- Replacements that are pieces of the text are carried out. -/
theorem carriedOut_of_place (h : ∀ r ∈ rs, checkPlace source r = .ok ()) :
    ∃ out judged, apply source rs = .ok out ∧ CarriedOut source rs judged out := by
  have horder := descending_mergeSort rs
  have hplaces : ∀ r ∈ rs.mergeSort isTakenFirst, checkPlace source r = .ok () :=
    fun r hr => h r (horder.perm.mem_iff.mp hr)
  have hforward : ∀ r ∈ rs.mergeSort isTakenFirst, r.span.start ≤ r.span.stop :=
    fun r hr => start_le_stop_of_place (hplaces r hr)
  obtain ⟨last, hlast, hwrote, happlied, hskipped⟩ :=
    Progress.foldlM_step hplaces (Progress.wrote_start source)
  obtain ⟨before, hbefore⟩ := exists_slice? (Nat.zero_le _) (isBoundary_zero source) hwrote.boundary
  have hjudged := map_fst_fates (rs.mergeSort isTakenFirst) (byteLength source)
  refine ⟨last.finish source, fates (byteLength source) (rs.mergeSort isTakenFirst),
    apply_eq_ok_iff.mpr ⟨last, hlast, rfl⟩, ?_⟩
  have htext : weave source (fun r => some r.text) 0
      (withFate .made (fates (byteLength source) (rs.mergeSort isTakenFirst))).reverse =
        some (last.finish source).text := by
    rw [finish_text hbefore]
    exact hwrote.woven 0 before hbefore
  refine ⟨by rwa [hjudged], ?_, ?_, ?_, ?_, htext, ?_⟩
  · simpa [Progress.start, Progress.finish] using happlied
  · simpa [Progress.start, Progress.finish] using hskipped
  · refine (pairwise_made hforward).2.imp fun {a b} hab => ?_
    simp only [Span.overlaps, Bool.and_eq_false_iff, decide_eq_false_iff_not]
    omega
  · intro before r after hsplit
    -- Nothing reaches above the end of the text, so nothing is skipped before one is made.
    have hnone : ∀ r ∈ rs.mergeSort isTakenFirst, byteLength source < r.span.stop →
        ∃ a ∈ ([] : List Replacement), r.span.overlaps a.span = true := by
      intro r hr hlt
      obtain ⟨old, hold⟩ := exists_slice?_of_place (hplaces r hr)
      have := le_byteLength_of_isBoundary (isBoundary_stop hold)
      omega
    obtain ⟨a, ha, hoverlaps⟩ := overlaps_of_skipped hforward horder.sorted hnone hsplit
    exact ⟨a, ha.resolve_left List.not_mem_nil, hoverlaps⟩
  · have hmade : ∀ r ∈ (withFate .made
        (fates (byteLength source) (rs.mergeSort isTakenFirst))).reverse,
        checkPlace source r = .ok () := by
      intro r hr
      have hmem := mem_withFate.mp (List.mem_reverse.mp hr)
      refine hplaces r ?_
      rw [← hjudged]
      exact List.mem_map.mpr ⟨_, hmem, rfl⟩
    rw [weave_source hmade htext]
    exact slice?_self source

/-- Replacements are accepted exactly when each of them is a piece of the text. -/
theorem exists_apply_iff (rs : List Replacement) :
    (∃ out, apply source rs = .ok out) ↔ ∀ r ∈ rs, checkPlace source r = .ok () := by
  constructor
  · rintro ⟨out, hout⟩ r hr
    obtain ⟨last, hlast, -⟩ := apply_eq_ok_iff.mp hout
    cases hplace : checkPlace source r with
    | ok => rfl
    | error fault =>
        obtain ⟨fault', hfault⟩ := Progress.foldlM_of_error (p := .start source) hplace
          (List.mem_mergeSort.mpr hr)
        rw [hfault] at hlast
        contradiction
  · intro h
    obtain ⟨out, judged, hout, -⟩ := carriedOut_of_place h
    exact ⟨out, hout⟩

/-! ### Editing in place -/

/-- The text with `new` in place of its piece from `start` to `stop`; none where that is no piece
of it. -/
def replaceRange? (text : String) (start stop : Nat) (new : String) : Option String := do
  let before ← slice? text 0 start
  let _ ← slice? text start stop
  let after ← sliceFrom? text stop
  return before ++ new ++ after

theorem replaceRange?_append (u t v new : String) :
    replaceRange? (u ++ t ++ v) (byteLength u) (byteLength u + byteLength t) new =
      some (u ++ new ++ v) := by
  have hbefore : slice? (u ++ t ++ v) 0 (byteLength u) = some u := by
    simpa [String.append_assoc] using slice?_append "" u (t ++ v)
  have hafter : sliceFrom? (u ++ t ++ v) (byteLength u + byteLength t) = some v := by
    rw [← byteLength_append]
    exact sliceFrom?_append (u ++ t) v
  rw [replaceRange?, hbefore, slice?_append, hafter]
  rfl

/-- Why editing a text in place ends early. -/
inductive Halt where
  | misplaced (fault : Misplaced)
  /-- an edit outside the bounds of the text as it then is -/
  | crashed
  deriving DecidableEq, Repr

/-- A copy of the source that is edited in place. -/
structure Draft where
  text : String
  /-- where the last replacement that was made starts, if there is one -/
  floor : Option Nat
  applied : Nat
  skipped : Nat

namespace Draft

/-- Makes a replacement in the copy, at the offsets it has in the source. -/
def step (source : String) (d : Draft) (r : Replacement) : Except Halt Draft :=
  match checkPlace source r with
  | .error fault => .error (.misplaced fault)
  | .ok () =>
    if d.floor.any (· < r.span.stop) then .ok { d with skipped := d.skipped + 1 }
    else match replaceRange? d.text r.span.start r.span.stop r.text with
      | none => .error .crashed
      | some text => .ok {
          text, floor := some r.span.start, applied := d.applied + 1, skipped := d.skipped }

def finish (d : Draft) : Applied := { text := d.text, applied := d.applied, skipped := d.skipped }

end Draft

/-- Applies replacements to a copy of a text. -/
def applyInPlace (source : String) (replacements : List Replacement) : Except Halt Applied :=
  ((replacements.mergeSort isTakenFirst).foldlM (Draft.step source)
    { text := source, floor := none, applied := 0, skipped := 0 }).map Draft.finish

/-- A copy shows how far the replacements are made: up to the floor it is the source. -/
structure Draft.Shows (source : String) (p : Progress) (d : Draft) : Prop where
  text : ∃ before, slice? source 0 p.floor = some before ∧ d.text = before ++ p.done
  floor : d.floor = none ∧ p.floor = byteLength source ∨ d.floor = some p.floor
  applied : d.applied = p.applied
  skipped : d.skipped = p.skipped

namespace Draft.Shows

variable {p : Progress} {d : Draft}

theorem any_floor (h : d.Shows source p) (hplace : checkPlace source r = .ok ()) :
    d.floor.any (· < r.span.stop) = decide (p.floor < r.span.stop) := by
  rcases h.floor with ⟨hnone, hend⟩ | hsome
  · obtain ⟨old, hold⟩ := exists_slice?_of_place hplace
    have hle := le_byteLength_of_isBoundary (isBoundary_stop hold)
    rw [hnone, hend]
    simp [hle]
  · rw [hsome]
    rfl

/-- Below the floor the copy is the source, so a piece of the one is a piece of the other. -/
theorem replaceRange?_eq {between : String} (h : d.Shows source p)
    (hplace : checkPlace source r = .ok ())
    (hbetween : slice? source r.span.stop p.floor = some between) :
    ∃ before, slice? source 0 r.span.start = some before ∧
      replaceRange? d.text r.span.start r.span.stop r.text =
        some (before ++ (r.text ++ between ++ p.done)) := by
  obtain ⟨old, hold⟩ := exists_slice?_of_place hplace
  obtain ⟨before, hbefore⟩ := exists_slice? (Nat.zero_le _) (isBoundary_zero source)
    (isBoundary_start hold)
  obtain ⟨below, hbelow, htext⟩ := h.text
  have hcut : below = before ++ old ++ between := by
    have hjoin := slice?_join (slice?_join hbefore hold) hbetween
    exact Option.some.inj (hbelow.symm.trans hjoin)
  have hstart : r.span.start = byteLength before := by
    obtain ⟨u, v, -, hu, hlen⟩ := slice?_eq_some_iff.mp hbefore
    omega
  have hstop : r.span.stop = byteLength before + byteLength old := by
    obtain ⟨u, v, -, hu, hlen⟩ := slice?_eq_some_iff.mp hold
    omega
  refine ⟨before, hbefore, ?_⟩
  have hedit := replaceRange?_append before old (between ++ p.done) r.text
  rw [htext, hcut, hstart, hstop]
  simpa only [String.append_assoc] using hedit

/-- One step in the copy is one step in the account of it, and never leaves the copy's bounds. -/
theorem step (h : d.Shows source p) (hboundary : isBoundary source p.floor = true)
    (r : Replacement) :
    (∃ fault, p.step source r = .error fault ∧ d.step source r = .error (.misplaced fault)) ∨
      ∃ p' d', p.step source r = .ok p' ∧ d.step source r = .ok d' ∧ d'.Shows source p' ∧
        isBoundary source p'.floor = true := by
  cases hplace : checkPlace source r with
  | error fault =>
      refine Or.inl ⟨fault, Progress.step_of_error hplace, ?_⟩
      rw [Draft.step, hplace]
  | ok =>
      refine Or.inr ?_
      have hdraft : d.step source r = if p.floor < r.span.stop then
          .ok { d with skipped := d.skipped + 1 }
          else match replaceRange? d.text r.span.start r.span.stop r.text with
            | none => .error .crashed
            | some text => .ok {
                text, floor := some r.span.start, applied := d.applied + 1, skipped := d.skipped } := by
        rw [Draft.step, hplace]
        dsimp only
        rw [h.any_floor hplace]
        simp only [decide_eq_true_eq]
      by_cases hfloor : r.span.stop ≤ p.floor
      · obtain ⟨between, hbetween⟩ := Progress.exists_between hboundary hplace hfloor
        obtain ⟨before, hbefore, hreplace⟩ := h.replaceRange?_eq hplace hbetween
        rw [if_neg (Nat.not_lt.mpr hfloor), hreplace] at hdraft
        refine ⟨_, _, Progress.step_of_le hplace hfloor hbetween, hdraft, ?_,
          isBoundary_stop hbefore⟩
        exact ⟨⟨before, hbefore, rfl⟩, Or.inr rfl, congrArg (· + 1) h.applied, h.skipped⟩
      · rw [if_pos (Nat.not_le.mp hfloor)] at hdraft
        refine ⟨_, _, Progress.step_of_lt hplace (Nat.not_le.mp hfloor), hdraft, ?_, hboundary⟩
        exact ⟨h.text, h.floor, h.applied, congrArg (· + 1) h.skipped⟩

theorem foldlM : ∀ {rs : List Replacement} {p : Progress} {d : Draft}, d.Shows source p →
    isBoundary source p.floor = true →
    (∃ fault, rs.foldlM (Progress.step source) p = .error fault ∧
      rs.foldlM (Draft.step source) d = .error (.misplaced fault)) ∨
      ∃ p' d', rs.foldlM (Progress.step source) p = .ok p' ∧
        rs.foldlM (Draft.step source) d = .ok d' ∧ d'.Shows source p' := by
  intro rs
  induction rs with
  | nil =>
      intro p d h _
      exact Or.inr ⟨p, d, rfl, rfl, h⟩
  | cons r rs ih =>
      intro p d h hboundary
      rw [List.foldlM_cons, List.foldlM_cons]
      rcases h.step hboundary r with ⟨fault, hp, hd⟩ | ⟨p', d', hp, hd, h', hboundary'⟩
      · rw [hp, hd]
        exact Or.inl ⟨fault, rfl, rfl⟩
      · rw [hp, hd]
        exact ih h' hboundary'

end Draft.Shows

/-- Editing in place gives what `apply` gives, and never crashes. -/
theorem applyInPlace_eq (source : String) (rs : List Replacement) :
    applyInPlace source rs = (apply source rs).mapError .misplaced := by
  have hshows : Draft.Shows source (.start source) ⟨source, none, 0, 0⟩ := by
    exact ⟨⟨source, slice?_self source, String.append_empty.symm⟩, Or.inl ⟨rfl, rfl⟩, rfl, rfl⟩
  unfold applyInPlace apply
  rcases hshows.foldlM (isBoundary_byteLength source) with
    ⟨fault, hp, hd⟩ | ⟨p, d, hp, hd, h⟩
  · rw [hp, hd]
    rfl
  · rw [hp, hd]
    obtain ⟨before, hbefore, htext⟩ := h.text
    show Except.ok d.finish = Except.ok (p.finish source)
    rw [Draft.finish, htext, ← finish_text hbefore, h.applied, h.skipped]
    rfl

/-- Replacements are applied exactly and do not disturb each other.  A list is refused when one of
its replacements is misplaced; else each is made or skipped, and the text is the source with the new
texts in the places of those that are made.  Editing in place gives the same and never crashes. -/
theorem apply_exact (source : String) (rs : List Replacement) :
    ((∃ fault, apply source rs = .error fault) ↔ ∃ r ∈ rs, IsMisplaced source r) ∧
    applyInPlace source rs = (apply source rs).mapError .misplaced ∧
    ((∀ r ∈ rs, ¬ IsMisplaced source r) → ∃ out judged,
      apply source rs = .ok out ∧ out.applied + out.skipped = rs.length ∧
        CarriedOut source rs judged out) := by
  have haccepted : (∃ out, apply source rs = .ok out) ↔ ∀ r ∈ rs, ¬ IsMisplaced source r := by
    simp only [exists_apply_iff, checkPlace_eq_ok_iff]
  refine ⟨?_, applyInPlace_eq source rs, ?_⟩
  · constructor
    · rintro ⟨fault, hfault⟩
      by_contra hnone
      obtain ⟨out, hout⟩ := haccepted.mpr fun r hr hmis => hnone ⟨r, hr, hmis⟩
      rw [hfault] at hout
      contradiction
    · rintro ⟨r, hr, hmis⟩
      cases hout : apply source rs with
      | error fault => exact ⟨fault, rfl⟩
      | ok out => exact absurd hmis (haccepted.mp ⟨out, hout⟩ r hr)
  · intro hplaced
    obtain ⟨out, judged, hout, hcarried⟩ :=
      carriedOut_of_place fun r hr => checkPlace_eq_ok_iff.mpr (hplaced r hr)
    refine ⟨out, judged, hout, ?_, hcarried⟩
    have hlength := hcarried.order.perm.length_eq
    rw [List.length_map] at hlength
    rw [hcarried.applied, hcarried.skipped, length_made_add_skipped, hlength]

/-- A replacement on the first line. -/
def onFirstLine (start stop : Nat) (text : String) : Replacement :=
  { span := ⟨start, stop, 1, start + 1, 1, stop + 1⟩, text }

/-- An insertion where another replacement starts, and a replacement around another; the text they
are for has a character of two bytes. -/
def crowded : List Replacement :=
  [onFirstLine 4 6 "Z", onFirstLine 4 4 "!", onFirstLine 1 3 "e", onFirstLine 0 4 "X"]

theorem apply_exact_crowded :
    (∀ r ∈ crowded, ¬ IsMisplaced "aébcd" r) ∧
    apply "aébcd" crowded = .ok { text := "aeb!Z", applied := 3, skipped := 1 } ∧
    ∃ judged, CarriedOut "aébcd" crowded judged { text := "aeb!Z", applied := 3, skipped := 1 } := by
  have hplaced : ∀ r ∈ crowded, ¬ IsMisplaced "aébcd" r := by decide +kernel
  have happly : apply "aébcd" crowded = .ok { text := "aeb!Z", applied := 3, skipped := 1 } := by
    rw [apply, List.mergeSort_of_pairwise (by decide)]
    decide +kernel
  obtain ⟨-, -, hcarried⟩ := apply_exact "aébcd" crowded
  obtain ⟨out, judged, hout, -, hjudged⟩ := hcarried hplaced
  obtain rfl := Except.ok.inj (happly.symm.trans hout)
  exact ⟨hplaced, happly, judged, hjudged⟩

end HookLint.Fix
