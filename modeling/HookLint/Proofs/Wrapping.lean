/-
Peeling wrappers off and climbing back out of them.

Peeling follows `wrapped?` down, climbing follows the trees above up.  A step up undoes a step
down where the wrapper stands right above what it wraps.  The one wrapper that does not is a
broken cast: an error node stands between it and its operand, and an error node wraps nothing,
so a climb that starts below the error node ends below it (`Under.outermost`).  Hence climbing
from the operand gets back out of everything that was peeled off exactly when no broken cast
was, and otherwise it ends at the operand of the innermost one (`outermost_unwrap_iff`).

The other way round there is no exception: a climb passes a wrapper only from what it wraps, so
peeling leads down the same way again (`unwrap_outermost`).
-/
import HookLint.Proofs.Targets

namespace HookLint.Syntax.Site

variable {s c d m operand : Site} {t : Tree}

/-! ### Down and up again -/

theorem peels_unwrap (s : Site) : Peels s s.unwrap := by
  fun_induction unwrap s with
  | case1 s inner h ih => exact .head h ih
  | case2 s _ => exact .refl

theorem unwrap_of_wrapped? (h : s.wrapped? = some m) : s.unwrap = m.unwrap := by
  rw [unwrap]
  split <;> simp_all

theorem Peels.unwrap_eq (h : Peels s m) : s.unwrap = m.unwrap := by
  induction h with
  | refl => rfl
  | tail _ hwrapped ih => rw [ih, unwrap_of_wrapped? hwrapped]

theorem Peels.under (h : Peels s m) : Under s m := by
  induction h with
  | refl => exact .self s
  | tail _ hwrapped ih => exact ih.trans (Scope.Visit.under_of_wrapped? hwrapped)

theorem Peels.mem_spine (h : Peels s m) : m ∈ s.spine := by
  induction h using Relation.ReflTransGen.head_induction_on with
  | refl => exact self_mem_spine m
  | head hwrapped _ ih =>
      rw [spine_of_inner? (inner?_of_wrapped? hwrapped)]
      exact List.mem_cons_of_mem _ ih

/-- A broken cast wraps a node below one of its children, an error node. -/
theorem IsBrokenCast.wrapped? (h : s.IsBrokenCast) :
    ∃ operand d, s.wrapped? = some operand ∧ d ∈ s.children ∧ d.kind = .error ∧
      operand ∈ d.children := by
  obtain ⟨operand, hcast, d, hd, hkind, hoperand⟩ := h
  exact ⟨operand, d, wrapped?_of_castOperand? hcast, hd, hkind, hoperand⟩

/-! ### Climbing -/

/-- A climb from a site of a tree leads to a site above. -/
theorem outermost_under (hs : Under (root t) s) : Under s.outermost s := by
  induction hs with
  | self => exact .self _
  | @child p c _ hc ih =>
      rw [outermost_of_mem_children hc]
      split
      · exact .child ih hc
      · exact .self c

/-- A climb that starts below a node that wraps nothing ends below it. -/
theorem Under.outermost (h : Under c m) (hc : c ∈ d.children) (hd : d.wrapped? = none) :
    Under c m.outermost := by
  induction h with
  | self =>
      rw [outermost_of_mem_children hc, wraps_of_wrapped?_none hd, if_neg Bool.false_ne_true]
      exact .self c
  | @child p m hcp hm ih =>
      rw [outermost_of_mem_children hm]
      split
      · exact ih
      · exact .child hcp hm

/-- What stands in an error node is its own outermost wrapper. -/
theorem outermost_of_mem_error (hc : c ∈ d.children) (hd : d.kind = .error) : c.outermost = c := by
  have hnone : d.wrapped? = none := by simp [Site.wrapped?, hd]
  rw [outermost_of_mem_children hc, wraps_of_wrapped?_none hnone, if_neg Bool.false_ne_true]

/-- In a numbered tree a climb passes a wrapper only from what it wraps. -/
theorem wrapped?_of_wraps (hnum : t.Numbered) (hs : Under (root t) s) (hc : c ∈ s.children)
    (h : s.wraps c = true) : s.wrapped? = some c := by
  unfold wraps at h
  cases hwrapped : s.wrapped? with
  | none =>
      rw [hwrapped] at h
      contradiction
  | some inner =>
      rw [hwrapped, Option.any_some, beq_iff_eq] at h
      have hinner := hs.trans (Scope.Visit.under_of_wrapped? hwrapped)
      rw [eq_of_id hnum hinner (.child hs hc) h]

/-- Peeling undoes climbing. -/
theorem unwrap_outermost (hnum : t.Numbered) (hs : Under (root t) s) :
    s.outermost.unwrap = s.unwrap := by
  induction hs with
  | self => rfl
  | @child p c hp hc ih =>
      rw [outermost_of_mem_children hc]
      split
      · rename_i hwraps
        rw [ih, unwrap_of_wrapped? (wrapped?_of_wraps hnum hp hc hwraps)]
      · rfl

/-! ### Climbing undoes peeling, but for broken casts -/

/-- A climb ends at the operand of a broken cast when the way up to there is clear. -/
theorem outermost_unwrap_of_isBrokenCast {x : Site} (hx : Peels s x) (hbroken : x.IsBrokenCast)
    (hwrapped : x.wrapped? = some operand)
    (hclear : ∀ y, Peels operand y → ¬ y.IsBrokenCast) : s.unwrap.outermost = operand := by
  obtain ⟨_, d, hwrapped', -, hkind, hoperand⟩ := hbroken.wrapped?
  obtain rfl := Option.some.inj (hwrapped.symm.trans hwrapped')
  rw [hx.unwrap_eq, unwrap_of_wrapped? hwrapped,
    (peels_unwrap operand).outermost_eq fun y hy _ => hclear y hy,
    outermost_of_mem_error hoperand hkind]

/-- Below a broken cast no climb gets back to what was peeled. -/
theorem outermost_unwrap_ne {x : Site} (hs : Under (root t) s) (hx : Peels s x)
    (hbroken : x.IsBrokenCast) : s.unwrap.outermost ≠ s.outermost := by
  obtain ⟨operand, d, hwrapped, hd, hkind, hoperand⟩ := hbroken.wrapped?
  have hnone : d.wrapped? = none := by simp [Site.wrapped?, hkind]
  have hinside : Under operand s.unwrap.outermost := by
    rw [hx.unwrap_eq, unwrap_of_wrapped? hwrapped]
    exact (peels_unwrap operand).under.outermost hoperand hnone
  -- The climb ends inside of the cast, and that is inside of where the climb from `s` ends.
  have habove : Under s.outermost d := ((outermost_under hs).trans hx.under).trans (.of_child hd)
  intro heq
  have hback : Under operand d := (heq ▸ hinside).trans habove
  exact hback.ne_of_child hoperand rfl

/-- Peeling and climbing are inverse but for broken casts.  Climbing from what is left of an
expression gets out of all its wrappers exactly when none of them is a cast whose operand stands in
an error node; where one is, the climb ends at the operand of the innermost such cast.  Peeling from
where a climb ends gives what peeling from its start gives. -/
theorem outermost_unwrap_iff (hnum : t.Numbered) (hs : Under (root t) s) :
    (s.unwrap.outermost = s.outermost ↔ ∀ x, Peels s x → ¬ x.IsBrokenCast) ∧
    (∀ x operand, Peels s x → x.IsBrokenCast → x.wrapped? = some operand →
      (∀ y, Peels operand y → ¬ y.IsBrokenCast) → s.unwrap.outermost = operand) ∧
    s.outermost.unwrap = s.unwrap := by
  refine ⟨⟨?_, ?_⟩, ?_, unwrap_outermost hnum hs⟩
  · intro heq x hx hbroken
    exact outermost_unwrap_ne hs hx hbroken heq
  · intro hclear
    exact (peels_unwrap s).outermost_eq fun x hx _ => hclear x hx
  · intro x operand hx hbroken hwrapped hclear
    exact outermost_unwrap_of_isBrokenCast hx hbroken hwrapped hclear

/-- The tree of `(b: c)`, brackets left out. -/
def castInError : Tree :=
  .node ⟨5, "parenthesized_expression", .parenthesized, true, true, [], 8, 14⟩
    [.node ⟨6, "ERROR", .error, true, true, [], 9, 11⟩
      [.node ⟨7, "identifier", .identifier, true, false, [], 9, 10⟩ [],
        .node ⟨8, ":", .colon, false, false, [], 10, 11⟩ []],
    .node ⟨9, "identifier", .identifier, true, false, [], 12, 13⟩ []]

/-- The tree of `((b: c): d)`. -/
def castInCast : Tree :=
  .node ⟨4, "parenthesized_expression", .parenthesized, true, true, [], 7, 18⟩
    [castInError,
    .node ⟨10, "ERROR", .error, true, true, [], 14, 17⟩
      [.node ⟨11, ":", .colon, false, false, [], 14, 15⟩ [],
        .node ⟨12, "identifier", .identifier, true, false, [], 16, 17⟩ []]]

/-- The tree of `(a!)`. -/
def bracketedAssertion : Tree :=
  .node ⟨1, "parenthesized_expression", .parenthesized, true, false, [], 1, 5⟩
    [.node ⟨2, "non_null_expression", .assertion, true, false, [], 2, 4⟩
      [.node ⟨3, "identifier", .identifier, true, false, [], 2, 3⟩ []]]

/-- The tree of `[(a!), ((b: c): d)]`. -/
def castArray : Tree :=
  .node ⟨0, "array", .array, true, false, [], 0, 19⟩ [bracketedAssertion, castInCast]

/-- The first element is peeled down to `a` and climbed out of again; the climb from the second
one ends at `b`, inside of two casts. -/
theorem outermost_unwrap_iff_nested :
    castArray.Numbered ∧
    (⟨bracketedAssertion, [castArray]⟩ : Site).unwrap.outermost =
      (⟨bracketedAssertion, [castArray]⟩ : Site).outermost ∧
    (⟨castInCast, [castArray]⟩ : Site).unwrap.outermost.id = 7 ∧
    (⟨castInCast, [castArray]⟩ : Site).unwrap.outermost ≠
      (⟨castInCast, [castArray]⟩ : Site).outermost ∧
    (⟨castInCast, [castArray]⟩ : Site).outermost.unwrap =
      (⟨castInCast, [castArray]⟩ : Site).unwrap := by
  have hfirst : Under (root castArray) ⟨bracketedAssertion, [castArray]⟩ := .of_child (.head _)
  have hsecond : Under (root castArray) ⟨castInCast, [castArray]⟩ := .of_child (.tail _ (.head _))
  obtain ⟨hfirstIff, -, -⟩ := outermost_unwrap_iff (by decide : castArray.Numbered) hfirst
  obtain ⟨hsecondIff, hends, hpeeled⟩ :=
    outermost_unwrap_iff (by decide : castArray.Numbered) hsecond
  have hclear : ∀ {s : Site}, (∀ x ∈ s.spine, x.castOperand?.isNone = true) →
      ∀ x, Peels s x → ¬ x.IsBrokenCast :=
    fun h x hx => not_isBrokenCast_of_isNone (h x hx.mem_spine)
  have hinner : Peels ⟨castInCast, [castArray]⟩ ⟨castInError, [castInCast, castArray]⟩ :=
    .single rfl
  have hbroken : (⟨castInError, [castInCast, castArray]⟩ : Site).IsBrokenCast :=
    ⟨_, rfl, _, .head _, rfl, .head _⟩
  refine ⟨by decide, hfirstIff.mpr (hclear (by decide +kernel)), ?_, ?_, hpeeled⟩
  · rw [hends _ _ hinner hbroken rfl (hclear (by decide +kernel))]
    rfl
  · exact fun heq => hsecondIff.mp heq _ hinner hbroken

/-- Not all that is peeled off is climbed again: from `b` in `(b: c)` there is no way out of the
cast. -/
theorem broken_cast_not_climbed :
    castInError.Numbered ∧
      (root castInError).unwrap.outermost ≠ (root castInError).outermost := by
  refine ⟨by decide, outermost_unwrap_ne (.self _) .refl ?_⟩
  exact ⟨_, rfl, _, .head _, rfl, .head _⟩

end HookLint.Syntax.Site
