/-
Type syntax is not read.

Types are refused in one place only, where a site is read as a value, while names are
also taken from patterns, targets of assignments, imports, elements and parameters.  Every
way down is covered by one observation: what stands above a site that is referred to or
opens a scope was read itself, was passed over on the way, or is a list of parameters
(`Visit.passed_of_emit`).  A type contributes nothing in any role, and an assertion leads
to its operand only, so neither type syntax nor the type of an assertion is among them
(`types_not_read`).
-/
import HookLint.Proofs.Nesting

namespace HookLint.Syntax.Tree

/-- Whatever fills the field of parameters is a list of parameters. -/
def ListsParameters (t : Tree) : Prop :=
  ∀ u ∈ t.subtrees, Field.parameters ∈ u.label.fields →
    u.label.kind = Kind.ofName "formal_parameters"

instance (t : Tree) : Decidable t.ListsParameters :=
  inferInstanceAs (Decidable (∀ u ∈ t.subtrees, _))

end HookLint.Syntax.Tree

namespace HookLint.Scope

open HookLint.Syntax

/-! ### What types and assertions contribute -/

/-- `e as T`, `e satisfies T`, `e!` and `<T>e`. -/
def isAssertion : Kind → Bool
  | .assertion | .typeAssertion => true
  | _ => false

theorem expand_of_isTypeOnly (source : String) (role : Role) {s : Site}
    (h : s.kind.isTypeOnly = true) : expand source role s = [] := by
  have hkind : s.kind = .typeOnly ∨ s.kind = .comment := by
    revert h
    cases s.kind <;> simp [Kind.isTypeOnly]
  rcases hkind with hk | hk <;> cases role <;>
    simp [expand, expandValue, expandPattern, expandTarget, expandElementName,
      expandElementObject, hk]

/-- An assertion leads to its operand only. -/
theorem expand_of_isAssertion {source : String} {role : Role} {s : Site}
    (h : isAssertion s.kind = true) {step : Step} (hstep : step ∈ expand source role s) :
    ∃ r c, step = .visit r c ∧ s.wrapped? = some c := by
  have hkind : s.kind = .assertion ∨ s.kind = .typeAssertion := by
    revert h
    cases s.kind <;> simp [isAssertion]
  have hvisit : ∀ {r : Role}, step ∈ s.wrapped?.toList.map (Step.visit r) →
      ∃ r c, step = .visit r c ∧ s.wrapped? = some c := by
    intro r hmem
    obtain ⟨c, hc, rfl⟩ := List.mem_map.mp hmem
    exact ⟨r, c, rfl, Option.mem_toList.mp hc⟩
  cases role with
  | value =>
      rcases hkind with hk | hk <;> exact hvisit (by simpa [expand, expandValue, hk] using hstep)
  | target =>
      rcases hkind with hk | hk <;> exact hvisit (by simpa [expand, expandTarget, hk] using hstep)
  | pattern => rcases hkind with hk | hk <;> simp [expand, expandPattern, hk] at hstep
  | elementName => rcases hkind with hk | hk <;> simp [expand, expandElementName, hk] at hstep
  | elementObject => rcases hkind with hk | hk <;> simp [expand, expandElementObject, hk] at hstep

theorem mem_children_of_wrapped? {s c : Site} (h : isAssertion s.kind = true)
    (hc : s.wrapped? = some c) : c ∈ s.children := by
  rcases Site.mem_of_wrapped? hc with hmem | ⟨hcast, -⟩
  · exact hmem
  · rw [Site.kind_of_castOperand? hcast] at h
    contradiction

/-! ### What stands on the way -/

/-- What can stand above a site `x` that is referred to or opens a scope. -/
inductive Passed (source : String) (root : Tree) (x t : Site) : Prop
  /-- it is read, and a contribution of it leads on -/
  | read (role : Role) (step : Step) (h : step ∈ expand source role t)
      (hx : ∀ r c, step = .visit r c → Site.Under c x)
  | past (h : isPassedOver t.kind = true)
  | parameters (s : Site) (hs : Site.Under (Site.root root) s) (h : s.field? .parameters = some t)
  | name (h : isNameKind t.kind = true)

theorem Adjoins.between {s t c : Site} (h : Adjoins s c) (hst : Site.Under s t)
    (htc : Site.Under t c) : t = s ∨ t = c ∨ isPassedOver t.kind = true := by
  cases h with
  | child hc => exact (hst.eq_or_eq_of_child htc hc).imp_right Or.inl
  | past hd hpassed hc =>
      rcases hst.eq_of_grandchild htc hd hc with heq | heq | heq
      · exact Or.inl heq
      · exact Or.inr (Or.inr (heq ▸ hpassed))
      · exact Or.inr (Or.inl heq)

/-- What stands between a site and one it leads to is passed over. -/
theorem Offers.between {source : String} {s t c : Site} {role r : Role}
    (h : Offers source role s (.visit r c)) (hst : Site.Under s t) (htc : Site.Under t c) :
    t = s ∨ t = c ∨ isPassedOver t.kind = true ∨ s.field? .parameters = some t := by
  have hadjoins (hc : Adjoins s c) :
      t = s ∨ t = c ∨ isPassedOver t.kind = true ∨ s.field? .parameters = some t :=
    (hc.between hst htc).imp_right (Or.imp_right Or.inl)
  cases h with
  | value hc => exact hadjoins hc
  | elementName hc => exact hadjoins hc
  | elementObject hc => exact hadjoins hc
  | target _ hc => exact hadjoins hc.adjoins
  | pattern _ _ hc => exact hadjoins hc
  | parameter _ _ hps hc =>
      rcases hst.eq_of_grandchild htc (Site.mem_children_of_field? hps) hc with heq | heq | heq
      · exact Or.inl heq
      · exact Or.inr (Or.inr (Or.inr (heq ▸ hps)))
      · exact Or.inr (Or.inl heq)

namespace Visit

variable {source : String} {root : Tree} {v w : Visit} {x t : Site}

theorem Reaches.passed (h : Reaches source v w) (hv : Site.Under (Site.root root) v.site)
    (hwx : Site.Under w.site x) (hvt : Site.Under v.site t) (htw : Site.Under t w.site)
    (hne : t ≠ w.site) : Passed source root x t := by
  -- At each step the site stands at or above the next visit, or further on.
  induction h using Relation.ReflTransGen.head_induction_on with
  | refl => exact absurd (hvt.antisymm htw) hne
  | @head a b hstep hbw ih =>
      have hmem : .visit b.role b.site ∈ expand source a.role a.site := mem_of_mem_stages hstep
      have hbx : Site.Under b.site x := (Reaches.under hbw).trans hwx
      have hb := hv.trans hstep.under
      rcases htw.total (Reaches.under hbw) with htb | hbt
      · rcases (offers_of_mem_expand hmem).between hvt htb with rfl | rfl | hpassed | hps
        · refine .read a.role _ hmem fun r c heq => ?_
          injection heq with _ heq
          exact heq ▸ hbx
        · exact ih hb (.self _)
        · exact .past hpassed
        · exact .parameters a.site hv hps
      · exact ih hb hbt

/-- What a visit refers to or opens a scope for lies at the visited site, or is a name near it. -/
theorem near_of_emit {e : Event} (he : .emit e ∈ expand source w.role w.site)
    (hx : e.opens? = some x ∨ e.refers? = some x) :
    x = w.site ∨ Adjoins w.site x ∧ isNameKind x.kind = true := by
  cases offers_of_mem_expand he with
  | enter =>
      have heq : w.site = x := by simpa [Event.opens?, Event.refers?] using hx
      exact Or.inl heq.symm
  | leave => simp [Event.opens?, Event.refers?] at hx
  | declare => simp [Event.opens?, Event.refers?] at hx
  | refer =>
      have heq : w.site = x := by simpa [Event.opens?, Event.refers?] using hx
      exact Or.inl heq.symm
  | @write y hk hy =>
      have heq : y = x := by simpa [Event.opens?, Event.refers?] using hx
      exact Or.inr (heq ▸ ⟨hy.adjoins, hk⟩)

/-- Whatever stands above a site that is referred to or opens a scope was passed on the way. -/
theorem passed_of_emit {e : Event} (hw : Arrives source root w)
    (he : .emit e ∈ expand source w.role w.site) (hx : e.opens? = some x ∨ e.refers? = some x)
    {c : Site} (hc : c ∈ (Site.root root).children) (hct : Site.Under c t) (htx : Site.Under t x) :
    Passed source root x t := by
  have hread : t = w.site → Passed source root x t := by
    rintro rfl
    exact .read w.role _ he nofun
  have hnear := near_of_emit he hx
  have hwx : Site.Under w.site x := by
    rcases hnear with rfl | ⟨hadj, -⟩
    · exact .self _
    · exact hadj.under
  rcases htx.total hwx with htw | hwt
  · by_cases hne : t = w.site
    · exact hread hne
    · obtain ⟨d, hd, hdw⟩ := hw
      have hds := Site.mem_children_of_mem_namedChildren hd
      have hcd : c = d := (hct.trans htw).child_eq hdw.under hc hds
      subst hcd
      exact hdw.passed (.of_child hc) hwx hct htw hne
  · rcases hnear with rfl | ⟨hadj, hk⟩
    · exact hread (hwt.antisymm htx)
    · rcases hadj.between hwt htx with heq | rfl | hpassed
      · exact hread heq
      · exact .name hk
      · exact .past hpassed

end Visit

/-! ### Outside of types -/

namespace Passed

variable {source : String} {root : Tree} {x t : Site}

/-- A list of parameters is of the kind that its name says. -/
theorem kind_of_parameters (hlists : root.ListsParameters) {s : Site}
    (hs : Site.Under (Site.root root) s) (h : s.field? .parameters = some t) :
    t.kind = Kind.ofName "formal_parameters" := by
  refine hlists t.tree ?_ ?_
  · exact ((hs.trans (.of_child (Site.mem_children_of_field? h))).tree_mem)
  · have := List.find?_some h
    simpa using this

theorem not_isTypeOnly (h : Passed source root x t) (hlists : root.ListsParameters) :
    t.kind.isTypeOnly = false := by
  cases h with
  | read role step hstep _ =>
      by_contra htype
      rw [expand_of_isTypeOnly source role (by simpa using htype)] at hstep
      contradiction
  | past hpassed =>
      revert hpassed
      cases t.kind <;> simp [isPassedOver, Kind.isTypeOnly]
  | parameters s hs hps =>
      rw [kind_of_parameters hlists hs hps]
      rfl
  | name hname =>
      revert hname
      cases t.kind <;> simp [isNameKind, Kind.isTypeOnly]

theorem wrapped? (h : Passed source root x t) (hlists : root.ListsParameters)
    (ht : isAssertion t.kind = true) : ∃ c, t.wrapped? = some c ∧ Site.Under c x := by
  cases h with
  | read role step hstep hx =>
      obtain ⟨r, c, heq, hc⟩ := expand_of_isAssertion ht hstep
      exact ⟨c, hc, hx r c heq⟩
  | past hpassed =>
      revert hpassed ht
      cases t.kind <;> simp [isPassedOver, isAssertion]
  | parameters s hs hps =>
      rw [kind_of_parameters hlists hs hps] at ht
      contradiction
  | name hname =>
      revert hname ht
      cases t.kind <;> simp [isNameKind, isAssertion]

end Passed

/-- Below the root of its unit, `x` is no type syntax and lies in none, and it lies in no child
of an assertion but the operand. -/
structure OutsideTypes (root : Tree) (x : Site) : Prop where
  types : ∀ c ∈ (Site.root root).children, ∀ t, Site.Under c t → Site.Under t x →
    t.kind.isTypeOnly = false
  assertions : ∀ c ∈ (Site.root root).children, ∀ t, Site.Under c t → isAssertion t.kind = true →
    ∀ d ∈ t.children, Site.Under d x → t.wrapped? = some d

theorem Visit.outsideTypes_of_emit {source : String} {root : Tree} {w : Visit} {x : Site}
    (hlists : root.ListsParameters) {e : Event} (hw : Arrives source root w)
    (he : .emit e ∈ expand source w.role w.site) (hx : e.opens? = some x ∨ e.refers? = some x) :
    OutsideTypes root x where
  types _ hc _ hct htx := (passed_of_emit hw he hx hc hct htx).not_isTypeOnly hlists
  assertions _ hc t hct ht d hd hdx := by
    have hpassed := passed_of_emit hw he hx hc hct ((Site.Under.of_child hd).trans hdx)
    obtain ⟨operand, hoperand, hox⟩ := hpassed.wrapped? hlists ht
    have hmem := mem_children_of_wrapped? ht hoperand
    rw [hoperand, hox.child_eq hdx hmem hd]

namespace Graph

/-- No reference and no scope but the unit's own has its node in type syntax, or in an assertion
outside of the operand. -/
theorem types_not_read (source : String) {root : Tree} (hlists : root.ListsParameters) :
    (∀ r ∈ (build source root).references.toList, OutsideTypes root r.site) ∧
    ∀ scope ∈ (build source root).scopes.toList, scope.site ≠ Site.root root →
      OutsideTypes root scope.site := by
  constructor
  · intro r hr
    obtain ⟨b, hstage, -, -⟩ := exists_stage_of_mem_references hr
    obtain ⟨w, hw, hrefer⟩ := Visit.arrives_of_refer (mem_traced_of_mem_stages hstage)
    exact Visit.outsideTypes_of_emit hlists hw (mem_of_mem_stages hrefer) (Or.inr rfl)
  · intro scope hscope hroot
    obtain ⟨i, hi⟩ := List.mem_iff_getElem?.mp hscope
    rw [Array.getElem?_toList] at hi
    obtain ⟨b, kind, hstage⟩ := exists_stage_of_siteOf? (siteOf?_eq_some.mpr ⟨scope, hi, rfl⟩)
    obtain ⟨w, hw, hsite, -, hopens⟩ :=
      Visit.arrives_of_enter hroot (mem_traced_of_mem_stages hstage)
    exact Visit.outsideTypes_of_emit hlists hw hopens (Or.inl rfl)

/-- The tree of `(p: typeof q) => b as typeof c`. -/
def typedArrow : Tree :=
  .node ⟨0, "program", .other, true, false, [], 0, 30⟩
    [.node ⟨1, "expression_statement", .other, true, false, [], 0, 30⟩
      [.node ⟨2, "arrow_function", .arrowFunction, true, false, [], 0, 30⟩
        [.node ⟨3, "formal_parameters", .other, true, false, [.parameters], 0, 13⟩
          [.node ⟨4, "required_parameter", .parameter, true, false, [], 1, 12⟩
            [.node ⟨5, "identifier", .identifier, true, false, [.pattern], 1, 2⟩ [],
             .node ⟨6, "type_annotation", .typeOnly, true, false, [], 2, 12⟩
              [.node ⟨7, "type_query", .other, true, false, [], 4, 12⟩
                [.node ⟨8, "identifier", .identifier, true, false, [], 11, 12⟩ []]]]],
         .node ⟨9, "as_expression", .assertion, true, false, [.body], 17, 30⟩
          [.node ⟨10, "identifier", .identifier, true, false, [], 17, 18⟩ [],
           .node ⟨11, "type_query", .other, true, false, [], 22, 30⟩
            [.node ⟨12, "identifier", .identifier, true, false, [], 29, 30⟩ []]]]]]

/-- The statement of the tree. -/
def typedStatement : Site := (Site.root typedArrow).children.getD 0 default

/-- The assertion in its arrow function. -/
def typedBody : Site := (typedStatement.children.getD 0 default).children.getD 1 default

/-- The operand of the assertion is read, and nothing of its type is. -/
theorem types_not_read_typed :
    typedArrow.ListsParameters ∧
    (∃ r ∈ (build "(p: typeof q) => b as typeof c" typedArrow).references.toList,
      r.name = "b" ∧ OutsideTypes typedArrow r.site) ∧
    (∀ r ∈ (build "(p: typeof q) => b as typeof c" typedArrow).references.toList,
      ¬ Site.Under (typedBody.children.getD 1 default) r.site) ∧
    ∃ scope ∈ (build "(p: typeof q) => b as typeof c" typedArrow).scopes.toList,
      scope.site.kind = .arrowFunction ∧ OutsideTypes typedArrow scope.site := by
  have hlists : typedArrow.ListsParameters := by decide
  obtain ⟨hreferences, hscopes⟩ := types_not_read "(p: typeof q) => b as typeof c" hlists
  have hstatement : typedStatement ∈ (Site.root typedArrow).children := List.mem_cons_self ..
  have hbody : Site.Under typedStatement typedBody :=
    .child (.of_child (List.mem_cons_self ..)) (.tail _ (List.mem_cons_self ..))
  have hname : ∃ r ∈ (build "(p: typeof q) => b as typeof c" typedArrow).references.toList,
      r.name = "b" := by decide +kernel
  have hfunction : ∃ scope ∈ (build "(p: typeof q) => b as typeof c" typedArrow).scopes.toList,
      scope.site.kind = .arrowFunction ∧ scope.site.id ≠ (Site.root typedArrow).id := by
    decide +kernel
  obtain ⟨r, hr, hname⟩ := hname
  obtain ⟨scope, hscope, hkind, hid⟩ := hfunction
  refine ⟨hlists, ⟨r, hr, hname, hreferences r hr⟩, fun t ht hunder => ?_,
    scope, hscope, hkind, hscopes scope hscope fun heq => hid (heq ▸ rfl)⟩
  have hwrapped := (hreferences t ht).assertions typedStatement hstatement typedBody hbody rfl _
    (.tail _ (List.mem_cons_self ..)) hunder
  exact absurd (congrArg (Option.map (·.id)) hwrapped) (by decide)

end Graph

end HookLint.Scope
