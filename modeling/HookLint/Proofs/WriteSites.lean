/-
Where a write is reported.

Reading goes down from an assignment, an update or the head of a loop to the names that
are written; between the two there are only wrappers and patterns (`Receives`).  The way
back goes up from the name to the nearest assignment or update, wherever that is.  It
comes to the one that writes, if one does (`assignmentAbove_of_carries`).

The head of a loop is neither.  A name that is written there is reported at the next
assignment further up, which lies inside the callback, or around it.  So a write is
reported outside of its callback exactly when it is in the head of a loop that no
assignment of the callback surrounds, and the callback itself stands in an assignment
(`write_site_inside_iff`).
-/
import HookLint.Proofs.FreeVariables
import HookLint.Proofs.Targets

namespace HookLint.Syntax

theorem Kind.not_assigns_of_carriesTarget {k : Kind} (h : k.carriesTarget = true) :
    k.assigns = false := by
  revert h
  cases k <;> simp [carriesTarget, assigns]

theorem Kind.not_isInlineFunction_of_carriesTarget {k : Kind} (h : k.carriesTarget = true) :
    k.isInlineFunction = false := by
  revert h
  cases k <;> simp [carriesTarget, isInlineFunction]

namespace Site

variable {origin s t c x f : Site}

/-- The way up from a child goes through its parent. -/
theorem Under.of_mem_children (h : Under f c) (hc : c ∈ s.children) : f = c ∨ Under f s := by
  cases h with
  | self => exact Or.inl rfl
  | child h hc' => exact Or.inr (eq_of_mem_children hc' hc ▸ h)

/-- Only nodes that carry targets stand between `origin` and the site. -/
inductive Carries (origin : Site) : Site → Prop
  | child {c : Site} (hc : c ∈ origin.children) : Carries origin c
  | next {t c : Site} (h : Carries origin t) (ht : t.kind.carriesTarget = true)
      (hc : c ∈ t.children) : Carries origin c

/-- `origin` writes to the site, which is a target of it or is peeled or taken out of one. -/
inductive Receives (origin : Site) : Site → Prop
  | target {t : Site} (hkind : origin.kind.assigns = true ∨ origin.kind = .forIn)
      (htarget : IsTargetOf origin t) : Receives origin t
  | peel {t x : Site} (h : Receives origin t) (hwrapped : t.wrapped? = some x) : Receives origin x
  | part {t x : Site} (h : Receives origin t) (hkind : t.kind.carriesTarget = true)
      (hpart : IsTargetOf t x) : Receives origin x

theorem carriesTarget_of_wrapped? (h : t.wrapped? = some x) : t.kind.carriesTarget = true := by
  have hwrapper := Scope.Visit.isTransparent_of_wrapped? h
  revert hwrapper
  cases t.kind <;> simp [Kind.isTransparent, Kind.carriesTarget]

theorem Receives.carries (h : Receives origin x) : Carries origin x := by
  induction h with
  | target _ htarget => exact .child htarget.mem_children
  | peel _ hwrapped ih =>
      have hcarries := carriesTarget_of_wrapped? hwrapped
      rcases Site.mem_of_wrapped? hwrapped with hchild | ⟨-, d, hd, hkind, hchild⟩
      · exact .next ih hcarries hchild
      · -- The operand of a broken cast stands in an error node.
        exact .next (.next ih hcarries hd) (by rw [hkind]; rfl) hchild
  | part _ hkind hpart ih => exact .next ih hkind hpart.mem_children

theorem Carries.under (h : Carries origin x) : Under origin x := by
  induction h with
  | child hc => exact .of_child hc
  | next _ _ hc ih => exact .child ih hc

/-- No function stands between what writes and what is written. -/
theorem Carries.under_of_isInlineFunction (h : Carries origin x)
    (hf : f.kind.isInlineFunction = true) (hfx : Under f x) : f = x ∨ Under f origin := by
  induction h with
  | child hc => exact hfx.of_mem_children hc
  | next _ ht hc ih =>
      rcases hfx.of_mem_children hc with rfl | hft
      · exact Or.inl rfl
      · rcases ih hft with rfl | horigin
        · rw [Kind.not_isInlineFunction_of_carriesTarget ht] at hf
          contradiction
        · exact Or.inr horigin

end Site

end HookLint.Syntax

namespace HookLint.Scope

open HookLint.Syntax HookLint.Syntax.Site

variable {source : String} {root : Tree} {s x : Site} {role : Role}

/-! ### What a step writes -/

/-- The site that a step writes, or reads as a target. -/
def Step.written? : Step → Option Site
  | .emit (.refer _ x access) => if access.isWrite then some x else none
  | .visit (.target _) c => some c
  | _ => none

/-- What a site writes has an origin, if the site has one where it is a target itself. -/
theorem Writes.exists_origin (h : Writes role s x)
    (hs : role.isTarget = true → ∃ origin, Receives origin s) : ∃ origin, Receives origin x := by
  cases h with
  | target h hkind =>
      rcases hkind with hassigns | hloop | ⟨hrole, hcarries⟩
      · exact ⟨s, .target (Or.inl hassigns) h⟩
      · exact ⟨s, .target (Or.inr hloop) h⟩
      · obtain ⟨origin, hs⟩ := hs hrole
        exact ⟨origin, .part hs hcarries h⟩
  | @property d hrole hkind hd hkd h =>
      obtain ⟨origin, hs⟩ := hs hrole
      have hproperty : Receives origin d :=
        .part hs (by rw [hkind]; rfl) (.element (Or.inr hkind) hd)
      exact ⟨origin, .part hproperty (by rcases hkd with hkd | hkd <;> rw [hkd] <;> rfl) h⟩
  | peeled hrole h =>
      obtain ⟨origin, hs⟩ := hs hrole
      exact ⟨origin, .peel hs h⟩

/-- What is written has an origin, if what is read as a target has. -/
theorem exists_origin_of_mem_expand {step : Step} (hstep : step ∈ expand source role s)
    (hx : step.written? = some x) (hs : role.isTarget = true → ∃ origin, Receives origin s) :
    ∃ origin, Receives origin x := by
  cases offers_of_mem_expand hstep with
  | refer access _ hrole =>
      simp only [Step.written?, Option.ite_none_right_eq_some, Option.some.injEq] at hx
      obtain ⟨hwrite, rfl⟩ := hx
      rcases hrole with rfl | hrole
      · contradiction
      · exact hs hrole
  | write _ hwrites => exact Option.some.inj hx ▸ hwrites.exists_origin hs
  | target _ hwrites => exact Option.some.inj hx ▸ hwrites.exists_origin hs
  | _ => contradiction

/-- Whatever is read as a target is written by something. -/
theorem Visit.exists_origin {v : Visit} (h : Arrives source root v)
    (hrole : v.role.isTarget = true) : ∃ origin, Receives origin v.site := by
  obtain ⟨start, -, hreaches⟩ := h
  induction hreaches with
  | refl => contradiction
  | @tail u v _ hstep ih =>
      refine exists_origin_of_mem_expand (mem_of_mem_stages hstep) ?_ ih
      cases hv : v.role with
      | target => rfl
      | _ => simp [hv, Role.isTarget] at hrole

namespace Graph

/-- Every write of a unit has an origin. -/
theorem exists_origin {r : Reference} (hr : r ∈ (build source root).references.toList)
    (hwrite : r.access.isWrite = true) : ∃ origin, Receives origin r.site := by
  obtain ⟨b, hstage, -, -⟩ := exists_stage_of_mem_references hr
  obtain ⟨v, hv, hrefer⟩ := Visit.arrives_of_refer (mem_traced_of_mem_stages hstage)
  exact exists_origin_of_mem_expand (mem_of_mem_stages hrefer) (if_pos hwrite)
    (Visit.exists_origin hv)

/-- A reference in the scope of a function, or in a scope nested in it, lies below the function. -/
theorem under_of_isWithin (hnum : root.Numbered) {f : Site} (hf : Under (Site.root root) f)
    {scope : ScopeId} (hscope : (build source root).scopeAt? f = some scope) {r : Reference}
    (hr : r ∈ (build source root).references.toList)
    (hwithin : (build source root).isWithin r.scope scope = true) : Under f r.site := by
  obtain ⟨b, hstage, hcurrent, -⟩ := exists_stage_of_mem_references hr
  -- The scope is open where the reference is met, and so is the region of the function.
  have hmem : scope ∈ b.stack := by
    rw [isWithin_iff_mem, hcurrent, ancestors_current hstage rfl] at hwithin
    exact hwithin
  have hsite : b.graph.siteOf? scope = some f := by
    rw [← (extends_build hstage).siteOf? ((open_of_mem_unitStages hstage).lt_size _ hmem)]
    exact siteOf?_scopeAt? hnum hf hscope
  have hregion : f ∈ b.regions := List.mem_filterMap.mpr ⟨scope, hmem, hsite⟩
  obtain ⟨v, hv, hrefer⟩ := Visit.arrives_of_refer (mem_traced_of_mem_stages hstage)
  have hunder := (Visit.refer_under hrefer).1
  rcases Visit.inside_of_mem_stages hrefer with heq | heq
  · exact (hv.mem_inside (heq ▸ hregion)).trans hunder
  · rw [heq] at hregion
    rcases List.mem_cons.mp hregion with rfl | hinside
    · exact hunder
    · exact (hv.mem_inside hinside).trans hunder

end Graph

end HookLint.Scope

namespace HookLint.Dependency

open HookLint.Syntax HookLint.Scope HookLint.Syntax.Site

variable {source : String} {root : Tree} {origin s c x d : Site}

/-! ### The way up -/

/-- The nearest assignment or update at or above a site, or `default` without one. -/
def assignmentFrom (default s : Site) : Site :=
  if s.kind.assigns then s else assignmentAbove default s.above

theorem assignmentAbove_of_mem_children (hc : c ∈ s.children) :
    assignmentAbove d c.above = assignmentFrom d s := by
  have hkind : s.tree.kind = s.kind := rfl
  rw [above_of_mem_children hc, assignmentAbove, assignmentFrom, hkind]
  cases s.kind <;> rfl

/-- From a name the way up comes to what writes it. -/
theorem assignmentAbove_of_carries (h : Carries origin x) :
    assignmentAbove d x.above = assignmentFrom d origin := by
  induction h with
  | child hc => exact assignmentAbove_of_mem_children hc
  | next _ ht hc ih =>
      rw [assignmentAbove_of_mem_children hc, assignmentFrom,
        if_neg (by simp [Kind.not_assigns_of_carriesTarget ht]), ih]

/-- `a` is the nearest assignment or update at or above `s`. -/
structure Nearest (s a : Site) : Prop where
  above : Under a s
  assigns : a.kind.assigns = true
  nearest : ∀ b, Under b s → b.kind.assigns = true → Under b a

/-- What the way up comes to. -/
theorem nearest_assignmentFrom (d : Site) (hs : Under (Site.root root) s) :
    Nearest s (assignmentFrom d s) ∨
      assignmentFrom d s = d ∧ ∀ a, Under a s → a.kind.assigns = false := by
  have hself : ∀ {s : Site}, s.kind.assigns = true → Nearest s (assignmentFrom d s) := by
    intro s hassigns
    rw [assignmentFrom, if_pos hassigns]
    exact ⟨.self s, hassigns, fun b hb _ => hb⟩
  induction hs with
  | self =>
      by_cases hassigns : (Site.root root).kind.assigns = true
      · exact Or.inl (hself hassigns)
      · refine Or.inr ⟨by rw [assignmentFrom, if_neg hassigns]; rfl, fun a ha => ?_⟩
        cases ha with
        | self => simpa using hassigns
        | child _ hc => exact absurd (above_of_mem_children hc) (by simp [Site.root])
  | @child t c _ hc ih =>
      by_cases hassigns : c.kind.assigns = true
      · exact Or.inl (hself hassigns)
      · have hup : assignmentFrom d c = assignmentFrom d t := by
          rw [assignmentFrom, if_neg hassigns, assignmentAbove_of_mem_children hc]
        rw [hup]
        rcases ih with hnearest | ⟨hdefault, hnone⟩
        · refine Or.inl ⟨.child hnearest.above hc, hnearest.assigns, fun b hb hb' => ?_⟩
          rcases hb.of_mem_children hc with rfl | hbt
          · exact absurd hb' hassigns
          · exact hnearest.nearest b hbt hb'
        · refine Or.inr ⟨hdefault, fun a ha => ?_⟩
          rcases ha.of_mem_children hc with rfl | hat
          · simpa using hassigns
          · exact hnone a hat

/-! ### Writes -/

theorem freeWrite_mem_writes {g : Graph} {callback : Site} {scope : ScopeId}
    (hscope : g.scopeAt? callback = some scope) {p : Reference × BindingId}
    (hp : p ∈ outerReferences g scope) (hwrite : p.1.access.isWrite = true) :
    freeWrite p ∈ (extract g source callback).writes := by
  unfold extract
  rw [hscope]
  exact List.mem_mergeSort.mpr (List.mem_map.mpr ⟨p, List.mem_filter.mpr ⟨hp, hwrite⟩, rfl⟩)

theorem mem_writes {g : Graph} {callback : Site} {w : Write}
    (h : w ∈ (extract g source callback).writes) :
    ∃ scope r, g.scopeAt? callback = some scope ∧ (r, w.binding) ∈ outerReferences g scope ∧
      r.access.isWrite = true ∧ w.name = r.name ∧ w.site = writeSite r.site := by
  unfold extract at h
  split at h
  · contradiction
  · rename_i scope hscope
    obtain ⟨⟨r, b⟩, hr, rfl⟩ := List.mem_map.mp (List.mem_mergeSort.mp h)
    obtain ⟨hmem, hwrite⟩ := List.mem_filter.mp hr
    exact ⟨scope, r, hscope, hmem, hwrite, rfl, rfl⟩

/-- Where a write of a callback is reported.  The written name has an origin, which is in the
callback: an assignment, an update or a loop with the name in its head.  The write is reported at
the nearest assignment or update at or above the origin, or at the name if there is none, and this
contains the name.  It is inside the callback exactly when an assignment of the callback contains
the origin, or no assignment contains the callback. -/
theorem write_site_inside_iff (hnum : root.Numbered) {f : Site} (hf : Under (Site.root root) f)
    (hinline : f.kind.isInlineFunction = true) {w : Write}
    (hw : w ∈ (extract (Graph.build source root) source f).writes) :
    ∃ r ∈ (Graph.build source root).references.toList, r.access.isWrite = true ∧
      r.resolved = some w.binding ∧ r.name = w.name ∧ Under f r.site ∧ Under w.site r.site ∧
      ∃ origin, Receives origin r.site ∧ Under f origin ∧
        (Nearest origin w.site ∨
          w.site = r.site ∧ ∀ a, Under a origin → a.kind.assigns = false) ∧
        (Under f w.site ↔
          (∃ a, Under f a ∧ Under a origin ∧ a.kind.assigns = true) ∨
            ∀ a, Under a f → a.kind.assigns = false) := by
  obtain ⟨scope, r, hscope, houter, hwrite, hname, hsite⟩ := mem_writes hw
  obtain ⟨hr, hresolved, hwithin, -⟩ := mem_outerReferences.mp houter
  obtain ⟨hunder, hkind, -⟩ := Graph.site_of_mem_references hr
  obtain ⟨origin, hreceives⟩ := Graph.exists_origin hr hwrite
  have hfr : Under f r.site := Graph.under_of_isWithin hnum hf hscope hr hwithin
  have horigin : Under f origin := by
    rcases hreceives.carries.under_of_isInlineFunction hinline hfr with rfl | h
    · -- A name is no function.
      revert hinline hkind
      cases r.site.kind <;> simp [Kind.isInlineFunction, isNameKind]
    · exact h
  rw [writeSite, assignmentAbove_of_carries hreceives.carries] at hsite
  have hplace := nearest_assignmentFrom r.site (hf.trans horigin)
  rw [← hsite] at hplace
  refine ⟨r, hr, hwrite, hresolved, hname.symm, hfr, ?_, origin, hreceives, horigin, hplace, ?_⟩
  · rcases hplace with hnearest | ⟨heq, -⟩
    · exact hnearest.above.trans hreceives.carries.under
    · exact heq ▸ .self _
  · rcases hplace with hnearest | ⟨heq, hnone⟩
    · constructor
      · exact fun h => Or.inl ⟨w.site, h, hnearest.above, hnearest.assigns⟩
      · rintro (⟨a, hfa, hao, ha⟩ | hfree)
        · exact hfa.trans (hnearest.nearest a hao ha)
        · rcases Under.total horigin hnearest.above with h | h
          · exact h
          · exact absurd (hnearest.assigns.symm.trans (hfree _ h)) (by simp)
    · exact iff_of_true (heq ▸ hfr) (Or.inr fun a ha => hnone a (ha.trans horigin))

/-! ### An instance -/

def loopSource : String := "(x, y) => \x7b y = () => \x7b for (x of y) \x7b\x7d \x7d \x7d"

/-- The tree of `loopSource`: the inner function writes `x` in the head of a loop, and stands in an
assignment. -/
def loopTree : Tree :=
  .node ⟨0, "program", .other, true, false, [], 0, 43⟩
    [.node ⟨1, "arrow_function", .arrowFunction, true, false, [], 0, 43⟩
      [.node ⟨2, "formal_parameters", .other, true, false, [.parameters], 0, 6⟩
        [.node ⟨3, "identifier", .identifier, true, false, [], 1, 2⟩ [],
        .node ⟨4, "identifier", .identifier, true, false, [], 4, 5⟩ []],
      .node ⟨5, "statement_block", .statementBlock, true, false, [.body], 10, 43⟩
        [.node ⟨6, "expression_statement", .other, true, false, [], 12, 41⟩
          [.node ⟨7, "assignment_expression", .assignment, true, false, [], 12, 41⟩
            [.node ⟨8, "identifier", .identifier, true, false, [.left], 12, 13⟩ [],
            .node ⟨9, "arrow_function", .arrowFunction, true, false, [.right], 16, 41⟩
              [.node ⟨10, "formal_parameters", .other, true, false, [.parameters], 16, 18⟩ [],
              .node ⟨11, "statement_block", .statementBlock, true, false, [.body], 22, 41⟩
                [.node ⟨12, "for_in_statement", .forIn, true, false, [], 24, 39⟩
                  [.node ⟨13, "identifier", .identifier, true, false, [.left], 29, 30⟩ [],
                  .node ⟨14, "of", .other, false, false, [.operator], 31, 33⟩ [],
                  .node ⟨15, "identifier", .identifier, true, false, [.right], 34, 35⟩ [],
                  .node ⟨16, "statement_block", .statementBlock, true, false, [.body], 37, 39⟩ []]]]]]]]]

/-- The assignment to `y`. -/
def loopAssignment : Site :=
  ((((Site.root loopTree).children.getD 0 default).children.getD 1 default).children.getD 0
    default).children.getD 0 default

/-- The inner function. -/
def loopCallback : Site := loopAssignment.children.getD 1 default

theorem loopCallback_mem : loopCallback ∈ loopAssignment.children := .tail _ (List.mem_cons_self ..)

theorem loopCallback_under : Under (Site.root loopTree) loopCallback :=
  .child (.child (.child (.child (.child (.self _) (List.mem_cons_self ..))
    (.tail _ (List.mem_cons_self ..))) (List.mem_cons_self ..)) (List.mem_cons_self ..))
    loopCallback_mem

theorem not_under_of_id {s : Site} (h : s.id = loopAssignment.id) : ¬ Under loopCallback s := by
  have hids : loopAssignment.id ∉ loopCallback.tree.ids := by decide
  exact fun hs => hids (h ▸ mem_ids_of_under hs)

/-- The write of `x` is reported at the assignment to `y`. -/
theorem loop_write :
    ∃ w ∈ (extract (Graph.build loopSource loopTree) loopSource loopCallback).writes,
      w.name = "x" ∧ w.site.id = loopAssignment.id := by
  have hscope : (Graph.build loopSource loopTree).scopeAt? loopCallback = some 2 := by
    decide +kernel
  have houter : ∃ p ∈ outerReferences (Graph.build loopSource loopTree) 2,
      p.1.access.isWrite = true ∧ (freeWrite p).name = "x" ∧
        (freeWrite p).site.id = loopAssignment.id := by
    decide +kernel
  obtain ⟨p, hp, hwrite, hname, hid⟩ := houter
  exact ⟨_, freeWrite_mem_writes hscope hp hwrite, hname, hid⟩

theorem write_site_inside_iff_loop :
    loopTree.Numbered ∧ Under (Site.root loopTree) loopCallback ∧
    loopCallback.kind.isInlineFunction = true ∧
    ∃ w ∈ (extract (Graph.build loopSource loopTree) loopSource loopCallback).writes,
      w.site.id = loopAssignment.id ∧
      ∃ r ∈ (Graph.build loopSource loopTree).references.toList,
        r.name = "x" ∧ Under loopCallback r.site ∧ Under w.site r.site ∧
        ∃ origin, Receives origin r.site ∧ Under loopCallback origin ∧
          ∀ a, Under loopCallback a → Under a origin → a.kind.assigns = false := by
  have hnum : loopTree.Numbered := by decide
  obtain ⟨w, hw, hname, hid⟩ := loop_write
  obtain ⟨r, hr, -, -, hrname, hfr, hwr, origin, hreceives, horigin, -, hinside⟩ :=
    write_site_inside_iff hnum loopCallback_under rfl hw
  refine ⟨hnum, loopCallback_under, rfl, w, hw, hid, r, hr, hrname.trans hname, hfr, hwr, origin,
    hreceives, horigin, fun a hfa hao => ?_⟩
  by_contra hassigns
  exact not_under_of_id hid (hinside.mpr (Or.inl ⟨a, hfa, hao, by simpa using hassigns⟩))

/-- A write in the head of a loop is reported at an assignment that contains the callback. -/
theorem loop_head_write_outside :
    Under loopAssignment loopCallback ∧
    ∃ w ∈ (extract (Graph.build loopSource loopTree) loopSource loopCallback).writes,
      w.name = "x" ∧ w.site.id = loopAssignment.id ∧ ¬ Under loopCallback w.site := by
  obtain ⟨w, hw, hname, hid⟩ := loop_write
  exact ⟨.of_child loopCallback_mem, w, hw, hname, hid, not_under_of_id hid⟩

end HookLint.Dependency
