/-
Replacements nested in one another.

Dependency arrays can stand inside one another, so a pass may be asked to replace an array
and one inside it.  Where of any two spans that overlap one lies inside the other, a pass
makes the replacements that have no other inside them, and only those.

A replacement that is skipped overlaps one that was made before it, and so has it inside
(`exists_inside_of_skipped`).  One that is made has none inside it: that other one was made
itself, or was skipped and has one inside it that was made, and made replacements do not
overlap.  No induction on the depth is needed, since what is skipped is skipped because of
one that is made.

No two of these replacements start together, so their order is not a choice, and the
result does not depend on the order of the list (`apply_perm`).
-/
import HookLint.Proofs.Replacements

namespace HookLint.Fix

variable {source : String} {rs : List Replacement} {r a b : Replacement}
  {judged : List (Replacement × Fate)} {out : Applied}

/-! ### Spans inside one another -/

/-- `a` lies inside `b` and starts later. -/
def Inside (a b : Replacement) : Prop :=
  b.span.start < a.span.start ∧ a.span.stop ≤ b.span.stop

/-- Two spans are apart, or one lies inside the other. -/
def ApartOrInside (a b : Replacement) : Prop :=
  a.span.overlaps b.span = true → Inside a b ∨ Inside b a

instance (a b : Replacement) : Decidable (Inside a b) := inferInstanceAs (Decidable (_ ∧ _))

instance (a b : Replacement) : Decidable (ApartOrInside a b) := inferInstanceAs (Decidable (_ → _))

/-- Replacements of pieces that are not empty, any two of which are apart or one inside the
other. -/
structure Nested (source : String) (rs : List Replacement) : Prop where
  placed : ∀ r ∈ rs, ¬ IsMisplaced source r
  nonempty : ∀ r ∈ rs, r.span.start < r.span.stop
  nested : rs.Pairwise ApartOrInside

/-- The span of a replacement holds that of no other replacement of the list. -/
def Innermost (rs : List Replacement) (r : Replacement) : Prop :=
  ∀ s ∈ rs, s ≠ r → ¬ (r.span.start ≤ s.span.start ∧ s.span.stop ≤ r.span.stop)

theorem overlaps_iff :
    a.span.overlaps b.span = true ↔ a.span.start < b.span.stop ∧ b.span.start < a.span.stop := by
  simp [Span.overlaps]

theorem overlaps_comm (a b : Replacement) : a.span.overlaps b.span = b.span.overlaps a.span :=
  Bool.and_comm ..

instance : Std.Symm ApartOrInside where
  symm a b h hoverlaps := (h (overlaps_comm a b ▸ hoverlaps)).symm

instance : Std.Symm fun a b : Replacement => a.span.overlaps b.span = false where
  symm a b h := overlaps_comm a b ▸ h

/-! ### The order of a nested list -/

theorem Nested.eq_of_takenBefore (h : Nested source rs) (ha : a ∈ rs) (hb : b ∈ rs)
    (hab : TakenBefore a b) (hba : TakenBefore b a) : a = b := by
  by_contra hne
  have hnonempty := h.nonempty a ha
  unfold TakenBefore at hab hba
  have hoverlaps : a.span.overlaps b.span = true := by
    rw [overlaps_iff]
    omega
  rcases h.nested.forall ha hb hne hoverlaps with hinside | hinside
  · unfold Inside at hinside
    omega
  · unfold Inside at hinside
    omega

/-- The order of a nested list does not matter. -/
theorem apply_perm (h : Nested source rs) {rs' : List Replacement} (hperm : rs'.Perm rs) :
    apply source rs' = apply source rs := by
  have horder := descending_mergeSort rs
  have horder' := descending_mergeSort rs'
  have hsorted : rs'.mergeSort isTakenFirst = rs.mergeSort isTakenFirst := by
    refine List.Perm.eq_of_pairwise ?_ horder'.sorted horder.sorted
      (horder'.perm.trans (hperm.trans horder.perm.symm))
    intro a b ha hb hab hba
    exact h.eq_of_takenBefore (hperm.mem_iff.mp (horder'.perm.mem_iff.mp ha))
      (horder.perm.mem_iff.mp hb) hab hba
  rw [apply, hsorted, apply]

/-! ### Which of them are made -/

theorem CarriedOut.mem (h : CarriedOut source rs judged out) {fate : Fate}
    (hr : (r, fate) ∈ judged) : r ∈ rs :=
  h.order.perm.mem_iff.mp (List.mem_map.mpr ⟨_, hr, rfl⟩)

/-- A replacement that is skipped has one inside it that is made. -/
theorem exists_inside_of_skipped (hnested : Nested source rs)
    (h : CarriedOut source rs judged out) (hr : (r, .skipped) ∈ judged) :
    ∃ a, (a, .made) ∈ judged ∧ Inside a r := by
  obtain ⟨before, after, hsplit⟩ := List.append_of_mem hr
  obtain ⟨a, ha, hoverlaps⟩ := h.blocked before r after hsplit
  have hbefore : a ∈ before.map (·.1) := List.mem_map.mpr ⟨_, mem_withFate.mp ha, rfl⟩
  have hjudged : judged.map (·.1) = before.map (·.1) ++ r :: after.map (·.1) := by
    rw [hsplit, List.map_append, List.map_cons]
  have htaken : TakenBefore a r := by
    have hsorted := h.order.sorted
    rw [hjudged, List.pairwise_append] at hsorted
    exact hsorted.2.2 a hbefore r List.mem_cons_self
  have hinside : ApartOrInside a r := by
    have hpairs := (h.order.perm.pairwise_iff fun {x y} => Std.Symm.symm x y).mpr hnested.nested
    rw [hjudged, List.pairwise_append] at hpairs
    exact hpairs.2.2 a hbefore r List.mem_cons_self
  refine ⟨a, ?_, ?_⟩
  · rw [hsplit]
    exact List.mem_append_left _ (mem_withFate.mp ha)
  · refine (hinside (overlaps_comm r a ▸ hoverlaps)).resolve_right fun hout => ?_
    unfold TakenBefore at htaken
    unfold Inside at hout
    omega

/-- Replacements that are made and stand one inside the other are one. -/
theorem CarriedOut.eq_of_overlaps (h : CarriedOut source rs judged out) (ha : (a, .made) ∈ judged)
    (hb : (b, .made) ∈ judged) (hoverlaps : a.span.overlaps b.span = true) : a = b := by
  by_contra hne
  have hapart := h.apart.forall (mem_withFate.mpr ha) (mem_withFate.mpr hb) hne
  rw [hoverlaps] at hapart
  contradiction

theorem made_iff_innermost (hnested : Nested source rs) (h : CarriedOut source rs judged out)
    {fate : Fate} (hr : (r, fate) ∈ judged) : fate = .made ↔ Innermost rs r := by
  cases fate with
  | skipped =>
      refine ⟨fun hfate => by contradiction, fun hinner => ?_⟩
      obtain ⟨a, ha, hlater, hends⟩ := exists_inside_of_skipped hnested h hr
      refine absurd ⟨Nat.le_of_lt hlater, hends⟩ (hinner a (h.mem ha) ?_)
      rintro rfl
      omega
  | made =>
      refine ⟨fun _ s hs hne hholds => ?_, fun _ => rfl⟩
      have hnonempty := hnested.nonempty s hs
      obtain ⟨⟨s', fate⟩, hjudged, rfl⟩ := List.mem_map.mp (h.order.perm.mem_iff.mpr hs)
      dsimp only at hne hholds hnonempty
      cases fate with
      | made =>
          refine hne (h.eq_of_overlaps hjudged hr ?_)
          rw [overlaps_iff]
          omega
      | skipped =>
          obtain ⟨a, ha, hlater, hends⟩ := exists_inside_of_skipped hnested h hjudged
          have hnonempty' := hnested.nonempty a (h.mem ha)
          have hsame : a = r := by
            refine h.eq_of_overlaps ha hr ?_
            rw [overlaps_iff]
            omega
          subst hsame
          omega

/-- The first replacement of a list is made. -/
theorem CarriedOut.applied_pos (h : CarriedOut source rs judged out) (hne : rs ≠ []) :
    0 < out.applied := by
  cases hjudged : judged with
  | nil =>
      have hperm := h.order.perm
      rw [hjudged] at hperm
      exact absurd hperm.symm.eq_nil hne
  | cons x rest =>
      obtain ⟨r, fate⟩ := x
      cases fate with
      | made =>
          rw [h.applied, hjudged, withFate_cons_self, List.length_cons]
          omega
      | skipped =>
          obtain ⟨a, ha, -⟩ := h.blocked [] r rest (by rw [hjudged]; rfl)
          contradiction

/-- Of replacements nested in one another, those that have no other inside them are made and the
others are skipped.  At least one is made, and the order of the list does not matter. -/
theorem innermost_made (hne : rs ≠ []) (hnested : Nested source rs) :
    ∃ out judged, apply source rs = .ok out ∧ CarriedOut source rs judged out ∧
      (∀ r fate, (r, fate) ∈ judged → (fate = .made ↔ Innermost rs r)) ∧
      0 < out.applied ∧
      ∀ rs', rs'.Perm rs → apply source rs' = apply source rs := by
  obtain ⟨out, judged, hout, hcarried⟩ :=
    carriedOut_of_place fun r hr => checkPlace_eq_ok_iff.mpr (hnested.placed r hr)
  exact ⟨out, judged, hout, hcarried, fun r fate => made_iff_innermost hnested hcarried,
    hcarried.applied_pos hne, fun rs' => apply_perm hnested⟩

/-- A replacement beside the others, and one around two others, the first of which is around
another. -/
def nestedFive : List Replacement :=
  [onFirstLine 10 12 "E", onFirstLine 5 7 "D", onFirstLine 4 8 "C", onFirstLine 1 3 "B",
    onFirstLine 0 9 "A"]

theorem innermost_made_five :
    nestedFive ≠ [] ∧ Nested "0123456789xy" nestedFive ∧
    apply "0123456789xy" nestedFive =
      .ok { text := "0B34D789E", applied := 3, skipped := 2 } ∧
    apply "0123456789xy" nestedFive.reverse = apply "0123456789xy" nestedFive := by
  have hne : nestedFive ≠ [] := by decide
  have hnested : Nested "0123456789xy" nestedFive :=
    ⟨by decide +kernel, by decide, by decide⟩
  obtain ⟨-, -, -, -, -, -, hperm⟩ := innermost_made hne hnested
  refine ⟨hne, hnested, ?_, hperm _ (List.reverse_perm _)⟩
  rw [apply, List.mergeSort_of_pairwise (by decide)]
  decide +kernel

end HookLint.Fix
