/-
Targets of assignments, from above and from below.

Reading goes down from an assignment to its targets: through wrappers, into the elements,
defaults and rests of a pattern, and from a loop to its head.  So whatever is read as a
target has a host, whose target it is, with nothing but wrappers between (`exists_host`).

A climb goes up from the object of an access and has to end before one that is a target.  It
looks out of the wrappers for an assignment or an update, so it knows two of the hosts
(`isAssigned_iff`), and it does not get out of a broken cast.  The path of a read therefore
ends before a target in a pattern, in the head of a loop or in a broken cast only where the
access would not have extended it anyway (`target_path_ends_iff`): in `[o.x] = y`, where
`o.x` is only written, the path read at `o` is `o.x`.
-/
import HookLint.Proofs.Climbing

namespace HookLint.Syntax

namespace Site

/-- Peeling wrappers off `s` comes to the second site. -/
def Peels : Site → Site → Prop := Relation.ReflTransGen fun s inner => s.wrapped? = some inner

/-- No cast on the way from `s` down to `m` is broken. -/
def Intact (s m : Site) : Prop := ∀ x, Peels s x → Peels x m → ¬ x.IsBrokenCast

variable {host target s m : Site}

/-- A host wraps nothing. -/
theorem IsTargetOf.wrapped? (h : IsTargetOf host target) : host.wrapped? = none := by
  unfold Site.wrapped?
  cases h with
  | assignment hkind => rcases hkind with hkind | hkind <;> rw [hkind]
  | update hkind => rw [hkind]
  | loop hkind => rw [hkind]
  | element hkind => rcases hkind with hkind | hkind <;> rw [hkind]
  | property hkind => rw [hkind]
  | default hkind => rcases hkind with hkind | hkind <;> rw [hkind]
  | rest hkind => rw [hkind]

/-- What is peeled out of an expression is surrounded like the expression, or stands in an error
node. -/
theorem Peels.surround? (h : Peels s m) : m.surround? = s.surround? ∨ m.IsInside := by
  induction h with
  | refl => exact Or.inl rfl
  | tail _ hwrapped ih =>
      rcases surround?_of_inner? (inner?_of_wrapped? hwrapped) with heq | hinside
      · unfold IsInside
        rw [heq]
        exact ih
      · exact Or.inr hinside

/-- Climbing out of wrappers undoes the peeling, as long as no cast is broken. -/
theorem Peels.outermost_eq (h : Peels s m) (hintact : Intact s m) : m.outermost = s.outermost := by
  induction h using Relation.ReflTransGen.head_induction_on with
  | refl => rfl
  | @head s inner hwrapped hpeels ih =>
      have hinner : inner.outermost = s.outermost := by
        rcases mem_children_of_inner? (inner?_of_wrapped? hwrapped) with hchild | ⟨hbroken, -⟩
        · rw [outermost_of_mem_children hchild, if_pos (wraps_of_wrapped? hwrapped)]
        · exact absurd hbroken (hintact s .refl (.head hwrapped hpeels))
      rw [ih fun x hx hxm => hintact x (.head hwrapped hx) hxm, hinner]

theorem intact_of_isAccess (h : m.kind.isAccess = true) : Intact m m := by
  rintro x hmx - ⟨operand, hcast, -⟩
  have hnone := wrapped?_of_isAccess h
  rcases Relation.ReflTransGen.cases_head hmx with rfl | ⟨inner, hwrapped, -⟩
  · rw [wrapped?_of_castOperand? hcast] at hnone
    contradiction
  · rw [hwrapped] at hnone
    contradiction

theorem Intact.head {inner : Site} (h : Intact inner m) (hwrapped : s.wrapped? = some inner)
    (hchild : inner ∈ s.children) : Intact s m := by
  intro x hsx hxm
  rcases Relation.ReflTransGen.cases_head hsx with rfl | ⟨inner', hwrapped', hpeels⟩
  · exact not_isBrokenCast (inner?_of_wrapped? hwrapped) hchild
  · obtain rfl : inner = inner' := Option.some.inj (hwrapped.symm.trans hwrapped')
    exact h x hpeels hxm

/-- What is peeled out of a broken cast stands in an error node. -/
theorem Peels.isInside (h : Peels s m) (hm : m.wrapped? = none) (hbroken : s.IsBrokenCast) :
    m.IsInside := by
  rcases Relation.ReflTransGen.cases_head h with rfl | ⟨inner, hwrapped, hpeels⟩
  · obtain ⟨operand, hcast, -⟩ := hbroken
    rw [wrapped?_of_castOperand? hcast] at hm
    contradiction
  · have hinner := inner?_of_wrapped? hwrapped
    rcases mem_children_of_inner? hinner with hchild | ⟨-, d, hkind, hchild⟩
    · exact absurd hbroken (not_isBrokenCast hinner hchild)
    · have hnone : d.wrapped? = none := by simp [Site.wrapped?, hkind]
      have hsurround : inner.surround? = some .error :=
        hkind ▸ surround?_of_not_wraps hchild hnone
      rcases Peels.surround? hpeels with heq | hinside
      · exact ⟨.error, heq.trans hsurround, Or.inr rfl⟩
      · exact hinside

end Site

end HookLint.Syntax

namespace HookLint.Scope

open HookLint.Syntax HookLint.Syntax.Site

variable {source : String} {s c : Site} {role r : Role} {access : Access}

/-! ### What is read as a target -/

/-- A target has a host, or is peeled out of another target. -/
theorem target_of_mem_expand (h : .visit (.target access) c ∈ expand source role s) :
    (∃ host, IsTargetOf host c) ∨ (∃ outer, role = .target outer) ∧ s.wrapped? = some c := by
  cases offers_of_mem_expand h with
  | target _ hwrites =>
      cases hwrites with
      | target htarget => exact Or.inl ⟨s, htarget⟩
      | property _ _ _ _ htarget => exact Or.inl ⟨_, htarget⟩
      | peeled hrole hwrapped =>
          cases role with
          | target outer => exact Or.inr ⟨⟨outer, rfl⟩, hwrapped⟩
          | _ => contradiction

/-- Whatever is read as a target is the target of some host, up to wrappers. -/
theorem Visit.exists_host {root : Tree} {v : Visit} (h : Arrives source root v)
    (hrole : v.role = .target access) :
    ∃ host target, IsTargetOf host target ∧ Peels target v.site := by
  obtain ⟨start, -, hreaches⟩ := h
  induction hreaches generalizing access with
  | refl => contradiction
  | @tail u v _ hstep ih =>
      have hmem : .visit v.role v.site ∈ expand source u.role u.site := mem_of_mem_stages hstep
      rw [hrole] at hmem
      rcases target_of_mem_expand hmem with ⟨host, hhost⟩ | ⟨⟨outer, houter⟩, hwrapped⟩
      · exact ⟨host, v.site, hhost, .refl⟩
      · obtain ⟨host, target, hhost, hpeels⟩ := ih houter
        exact ⟨host, target, hhost, .tail hpeels hwrapped⟩

end HookLint.Scope

namespace HookLint.Dependency

open HookLint.Syntax HookLint.Scope HookLint.Syntax.Site HookLint.Dependency.Path

variable {source : String} {host target m object : Site}

/-! ### What a climb sees of it -/

theorem isAssigned_of_outermost_eq {a b : Site} (h : a.outermost = b.outermost) :
    isAssigned a = isAssigned b := by
  rw [isAssigned, isAssigned, h]

/-- Of the hosts of a target, a climb knows assignments and updates. -/
theorem isAssigned_target (h : IsTargetOf host target) : isAssigned target = host.kind.assigns := by
  have houtermost : target.outermost = target := by
    rw [outermost_of_mem_children h.mem_children, wraps_of_wrapped?_none h.wrapped?,
      if_neg Bool.false_ne_true]
  rw [isAssigned, houtermost, parent?_of_mem_children h.mem_children]
  cases h with
  | assignment hkind htarget =>
      rcases hkind with hkind | hkind <;> simp [hkind, Kind.assigns, isField, htarget]
  | update hkind htarget => simp [hkind, Kind.assigns, isField, htarget]
  | loop hkind => simp [hkind, Kind.assigns]
  | element hkind => rcases hkind with hkind | hkind <;> simp [hkind, Kind.assigns]
  | property hkind => simp [hkind, Kind.assigns]
  | default hkind => rcases hkind with hkind | hkind <;> simp [hkind, Kind.assigns]
  | rest hkind => simp [hkind, Kind.assigns]

/-- A climb sees that an access is assigned when its host assigns and it gets out of all casts. -/
theorem isAssigned_iff (hhost : IsTargetOf host target) (hpeels : Peels target m)
    (haccess : m.kind.isAccess = true) :
    isAssigned m = true ↔ host.kind.assigns = true ∧ Intact target m := by
  by_cases hintact : Intact target m
  · rw [isAssigned_of_outermost_eq (hpeels.outermost_eq hintact), isAssigned_target hhost]
    simp [hintact]
  · have hinside : m.IsInside := by
      simp only [Intact, not_forall, not_not] at hintact
      obtain ⟨x, -, hxm, hbroken⟩ := hintact
      exact hxm.isInside (wrapped?_of_isAccess haccess) hbroken
    simp [(isIdle_of_isInside hinside).1, hintact]

/-- The path read at the stem of an access's object ends before the access when the access is
assigned, or could not be reached or taken. -/
theorem taken_stem_object_iff (haccess : m.kind.isAccess = true)
    (hobject : m.field? .object = some object) :
    (∀ a ∈ taken source object.stem, Site.Under object a) ↔
      isAssigned m = true ∨ ¬ (Climbable source object ∧ Extends source m) := by
  have hchild := mem_children_of_field? hobject
  have hidle : ∀ a ∈ object.accesses, IsIdle a := fun a ha =>
    isIdle_of_mem_accesses hchild (wrapped?_of_isAccess haccess) (usesAccess_of_isAccess haccess) ha
  rcases taken_stem source object hidle with ⟨hclimb, htaken⟩ | ⟨hstop, hfirst⟩
  · rw [htaken]
    by_cases htakes : Extends source m ∧ isAssigned m = false
    · -- The access is taken, and it does not stand in its own object.
      rw [taken_of_object haccess hobject htakes.1 htakes.2]
      refine iff_of_false (fun h => ?_) (by simp [hclimb, htakes.1, htakes.2])
      have hunder : Site.Under object m := h m (by simp)
      exact absurd (sizeOf_lt_of_mem_children hchild) (Nat.not_lt.mpr hunder.sizeOf_le)
    · rw [taken_of_object_eq_nil haccess hobject htakes, List.append_nil]
      refine iff_of_true (fun a ha => under_of_mem_accesses ha) ?_
      by_cases hassigned : isAssigned m = true
      · exact Or.inl hassigned
      · exact Or.inr fun h => htakes ⟨h.2, by simpa using hassigned⟩
  · exact iff_of_true (fun a ha => under_of_mem_accesses (hfirst.subset ha))
      (Or.inr fun h => hstop h.1)

/-- Where the path read at the stem of an access's object ends, for an access that is read as a
target.  The access has a host.  When the host is an assignment or an update, and no cast
between is broken, the path ends before the access.  Anywhere else it goes through the access
whenever the links up to it can be climbed and it extends a path. -/
theorem target_path_ends_iff {root : Tree} {inside : List Site} {access : Access}
    (harrives : Visit.Arrives source root ⟨inside, .target access, m⟩)
    (haccess : m.kind.isAccess = true) (hobject : m.field? .object = some object) :
    (∃ host target, IsTargetOf host target ∧ Peels target m) ∧
    pathAt source object.stem =
      ofKeys (object.stem.text source) ((taken source object.stem).filterMap (keyOf? source)) ∧
    ∀ host target, IsTargetOf host target → Peels target m →
      ((∀ a ∈ taken source object.stem, Site.Under object a) ↔
        (host.kind.assigns = true ∧ Intact target m) ∨
          ¬ (Climbable source object ∧ Extends source m)) := by
  refine ⟨Visit.exists_host harrives rfl, pathAt_eq source object.stem, ?_⟩
  intro host target hhost hpeels
  rw [taken_stem_object_iff haccess hobject, isAssigned_iff hhost hpeels haccess]

/-- The tree of `(o.a.x) = y`. -/
def wrappedTree : Tree :=
  .node ⟨0, "program", .other, true, false, [], 0, 11⟩
    [.node ⟨1, "expression_statement", .other, true, false, [], 0, 11⟩
      [.node ⟨2, "assignment_expression", .assignment, true, false, [], 0, 11⟩
        [.node ⟨3, "parenthesized_expression", .parenthesized, true, false, [.left], 0, 7⟩
          [.node ⟨4, "member_expression", .member, true, false, [], 1, 6⟩
            [.node ⟨5, "member_expression", .member, true, false, [.object], 1, 4⟩
              [.node ⟨6, "identifier", .identifier, true, false, [.object], 1, 2⟩ [],
              .node ⟨7, "property_identifier", .other, true, false, [.property], 3, 4⟩ []],
            .node ⟨8, "property_identifier", .other, true, false, [.property], 5, 6⟩ []]],
        .node ⟨9, "identifier", .identifier, true, false, [.right], 10, 11⟩ []]]]

def wrappedAssignment : Site :=
  ((Site.root wrappedTree).children.getD 0 default).children.getD 0 default

def wrappedTarget : Site := wrappedAssignment.children.getD 0 default

/-- The member `o.a.x`. -/
def wrappedMember : Site := wrappedTarget.children.getD 0 default

/-- Its object `o.a`. -/
def wrappedObject : Site := wrappedMember.children.getD 0 default

theorem target_path_ends_iff_wrapped :
    Visit.Arrives "(o.a.x) = y" wrappedTree
      ⟨[Site.root wrappedTree], .target .write, wrappedMember⟩ ∧
    wrappedMember.field? .object = some wrappedObject ∧
    (∀ a ∈ taken "(o.a.x) = y" wrappedObject.stem, Site.Under wrappedObject a) ∧
    pathAt "(o.a.x) = y" wrappedObject.stem = ⟨"o.a"⟩ := by
  have harrives : Visit.Arrives "(o.a.x) = y" wrappedTree
      ⟨[Site.root wrappedTree], .target .write, wrappedMember⟩ := by
    refine ⟨_, List.mem_cons_self, ?_⟩
    refine .head (b := ⟨_, .value, wrappedAssignment⟩) (List.mem_cons_self ..) ?_
    refine .head (b := ⟨_, .target .write, wrappedTarget⟩) (List.mem_cons_self ..) ?_
    exact .single (List.mem_cons_self ..)
  have hintact : Intact wrappedTarget wrappedMember :=
    (intact_of_isAccess rfl).head rfl (List.mem_cons_self ..)
  have hobject : wrappedMember.field? .object = some wrappedObject := rfl
  obtain ⟨-, -, hends⟩ := target_path_ends_iff harrives rfl hobject
  refine ⟨harrives, hobject, ?_, by decide +kernel⟩
  exact (hends wrappedAssignment wrappedTarget (.assignment (Or.inl rfl) rfl) (.single rfl)).mpr
    (Or.inl ⟨rfl, hintact⟩)

/-- The tree of `[o.x] = y`. -/
def elementTree : Tree :=
  .node ⟨0, "program", .other, true, false, [], 0, 9⟩
    [.node ⟨1, "expression_statement", .other, true, false, [], 0, 9⟩
      [.node ⟨2, "assignment_expression", .assignment, true, false, [], 0, 9⟩
        [.node ⟨3, "array_pattern", .arrayPattern, true, false, [.left], 0, 5⟩
          [.node ⟨4, "member_expression", .member, true, false, [], 1, 4⟩
            [.node ⟨5, "identifier", .identifier, true, false, [.object], 1, 2⟩ [],
            .node ⟨6, "property_identifier", .other, true, false, [.property], 3, 4⟩ []]],
        .node ⟨7, "identifier", .identifier, true, false, [.right], 8, 9⟩ []]]]

def elementAssignment : Site :=
  ((Site.root elementTree).children.getD 0 default).children.getD 0 default

def elementPattern : Site := elementAssignment.children.getD 0 default

/-- The member `o.x`. -/
def elementMember : Site := elementPattern.children.getD 0 default

/-- Its object `o`. -/
def elementObject : Site := elementMember.children.getD 0 default

/-- The element of a pattern that is assigned is read as a target, and the path read at its object
goes through it. -/
theorem element_path_goes_on :
    Visit.Arrives "[o.x] = y" elementTree
      ⟨[Site.root elementTree], .target .write, elementMember⟩ ∧
    elementMember.field? .object = some elementObject ∧ elementObject.stem.kind = .identifier ∧
    ¬ (∀ a ∈ taken "[o.x] = y" elementObject.stem, Site.Under elementObject a) ∧
    pathAt "[o.x] = y" elementObject.stem = ⟨"o.x"⟩ := by
  have hobject : elementMember.field? .object = some elementObject := rfl
  have hcasts : ∀ x ∈ elementObject.spine, x.castOperand?.isNone = true := by decide +kernel
  have hclimb : Climbable "[o.x] = y" elementObject := by
    refine ⟨fun x hx => not_isBrokenCast_of_isNone (hcasts x hx), fun a ha => ?_⟩
    rw [accesses_of_none rfl] at ha
    contradiction
  have hextends : Extends "[o.x] = y" elementMember :=
    ⟨rfl, "x", by decide +kernel, by decide⟩
  refine ⟨⟨_, List.mem_cons_self, ?_⟩, hobject, by decide +kernel, fun h => ?_, by decide +kernel⟩
  · refine .head (b := ⟨_, .value, elementAssignment⟩) (List.mem_cons_self ..) ?_
    refine .head (b := ⟨_, .target .write, elementPattern⟩) (List.mem_cons_self ..) ?_
    exact .single (List.mem_cons_self ..)
  · rcases (taken_stem_object_iff rfl hobject).mp h with hassigned | hstops
    · exact absurd hassigned (by decide +kernel)
    · exact hstops ⟨hclimb, hextends⟩

end HookLint.Dependency
