/-
The sites a reading visits, and the ways to them.

A visit is a site about to be read, with the regions open around it.  `Visit.Next`
goes from a visit to those its site leads to, and `Visit.Reaches` follows any number
of such steps; the events of a site are those the visits reached from it emit
(`mem_traced_events_iff`).

In a numbered tree there is one way to each node: of two visits to sites one above
the other, the upper one leads to the lower one (`Visit.Reaches.through`).  So a
reference below a site that opens a region is met inside the region, unless it stands
in the computed name of a method (`Visit.inside_of_under`); and whatever is met inside a
region lies below it (`mem_regions_iff_below`).
-/
import HookLint.Proofs.Once
import Mathlib.Logic.Relation

namespace HookLint.Scope

open HookLint.Syntax

/-- A site about to be read in a role, and the regions open around it, innermost first. -/
structure Visit where
  inside : List Site
  role : Role
  site : Site

namespace Visit

/-- The contributions of a visit, each with the regions open around it. -/
def stages (source : String) (v : Visit) : List (List Site × Step) :=
  Scope.stages Step.shift v.inside (expand source v.role v.site)

/-- `w` is one of the visits that `v` leads to. -/
def Next (source : String) (v w : Visit) : Prop := (w.inside, .visit w.role w.site) ∈ v.stages source

/-- `v` leads to `w` in any number of steps. -/
def Reaches (source : String) : Visit → Visit → Prop := Relation.ReflTransGen (Next source)

variable {source : String} {v w u : Visit}

/-! ### One step -/

theorem leads_of_mem_stages {inside : List Site} {step : Step} (h : (inside, step) ∈ v.stages source) :
    Leads source v.site step := by
  have hmem : step ∈ expand source v.role v.site := mem_of_mem_stages h
  exact expand_leads hmem

theorem Next.below (h : Next source v w) : ∃ d ∈ v.site.children, Site.Under d w.site :=
  (leads_of_mem_stages h).under

theorem Next.under (h : Next source v w) : Site.Under v.site w.site := by
  obtain ⟨d, hd, hdw⟩ := h.below
  exact (Site.Under.of_child hd).trans hdw

theorem Next.sizeOf_lt (h : Next source v w) : sizeOf w.site.tree < sizeOf v.site.tree := by
  obtain ⟨d, hd, hdw⟩ := h.below
  exact Nat.lt_of_le_of_lt hdw.sizeOf_le (Site.sizeOf_lt_of_mem_children hd)

theorem inside_of_mem_stages {inside : List Site} {step : Step}
    (h : (inside, step) ∈ v.stages source) : inside = v.inside ∨ inside = v.site :: v.inside :=
  (expand_shape v.role v.site).stage_cases h

/-- Of the contributions of a visit only one takes up a node of weight one. -/
theorem stage_unique {i : Nat} (hone : v.site.tree.OneField) (hw : v.site.weight i ≤ 1)
    {p q : List Site × Step} (hp : p ∈ v.stages source) (hq : q ∈ v.stages source)
    (hpi : 1 ≤ p.2.load i) (hqi : 1 ≤ q.2.load i) : p = q := by
  have hsum : ((v.stages source).map fun p => p.2.load i).sum ≤ 1 := by
    have hmap : (v.stages source).map (fun p => p.2.load i) =
        (expand source v.role v.site).map (Step.load i) := by
      rw [← map_snd_stages (f := Step.shift) v.inside (expand source v.role v.site), List.map_map]
      rfl
    rw [hmap]
    exact Nat.le_trans (loads_expand_le v.role hone) hw
  exact Site.eq_of_sum_le_one hsum hp hq hpi hqi

theorem Next.unique {i : Nat} (hone : v.site.tree.OneField) (hw : v.site.weight i ≤ 1)
    (h : Next source v w) (h' : Next source v u) (hwi : 1 ≤ w.site.weight i)
    (hui : 1 ≤ u.site.weight i) : w = u := by
  have heq := stage_unique hone hw h h' hwi hui
  cases w
  cases u
  simp_all

/-! ### Many steps -/

theorem Reaches.under (h : Reaches source v w) : Site.Under v.site w.site := by
  induction h with
  | refl => exact .self _
  | tail _ hstep ih => exact ih.trans hstep.under

theorem Reaches.cases_head (h : Reaches source v w) :
    v = w ∨ ∃ u, Next source v u ∧ Reaches source u w :=
  Relation.ReflTransGen.cases_head h

/-- Regions opened on the way lie on the way, inside of those open before. -/
theorem Reaches.inside_append (h : Reaches source v w) :
    ∃ front, w.inside = front ++ v.inside ∧
      ∀ r ∈ front, Site.Under v.site r ∧ Site.Under r w.site := by
  induction h with
  | refl => exact ⟨[], rfl, nofun⟩
  | @tail x y hvx hstep ih =>
      obtain ⟨front, hx, hfront⟩ := ih
      have hon : ∀ r ∈ front, Site.Under v.site r ∧ Site.Under r y.site :=
        fun r hr => ⟨(hfront r hr).1, (hfront r hr).2.trans hstep.under⟩
      rcases inside_of_mem_stages hstep with heq | heq
      · exact ⟨front, heq.trans hx, hon⟩
      · refine ⟨x.site :: front, by rw [heq, hx, List.cons_append], fun r hr => ?_⟩
        rcases List.mem_cons.mp hr with rfl | hr
        · exact ⟨Reaches.under hvx, hstep.under⟩
        · exact hon r hr

theorem Reaches.suffix (h : Reaches source v w) : v.inside <:+ w.inside := by
  obtain ⟨front, heq, -⟩ := h.inside_append
  exact ⟨front, heq.symm⟩

theorem Reaches.mem_inside (h : Reaches source v w) {r : Site} (hr : r ∈ w.inside) :
    r ∈ v.inside ∨ Site.Under v.site r ∧ Site.Under r w.site := by
  obtain ⟨front, heq, hfront⟩ := h.inside_append
  rw [heq] at hr
  exact (List.mem_append.mp hr).symm.imp_right (hfront r)

/-- So do the regions around what is contributed at the end. -/
theorem Reaches.stage_append (h : Reaches source v w) {inside : List Site} {step : Step}
    (hw : (inside, step) ∈ w.stages source) :
    ∃ front, inside = front ++ v.inside ∧
      ∀ r ∈ front, Site.Under v.site r ∧ Site.Under r w.site := by
  obtain ⟨front, heq, hfront⟩ := h.inside_append
  rcases inside_of_mem_stages hw with hinside | hinside
  · exact ⟨front, hinside.trans heq, hfront⟩
  · refine ⟨w.site :: front, by rw [hinside, heq, List.cons_append], fun r hr => ?_⟩
    rcases List.mem_cons.mp hr with rfl | hr
    · exact ⟨h.under, .self _⟩
    · exact hfront r hr

/-- There is one way to a node: it goes through every visit above that is reached at all. -/
theorem Reaches.through (hone : v.site.tree.OneField) (hw : v.site.weight u.site.id ≤ 1)
    (h : Reaches source v w) (h' : Reaches source v u) (hu : Site.Under w.site u.site) :
    Reaches source w u := by
  induction h using Relation.ReflTransGen.head_induction_on with
  | refl => exact h'
  | @head a b hstep hbw ih =>
      rcases h'.cases_head with rfl | ⟨c, hac, hcu⟩
      · have h1 := hstep.sizeOf_lt
        have h2 := (Reaches.under hbw).sizeOf_le
        have h3 := hu.sizeOf_le
        omega
      · have hb : 1 ≤ b.site.weight u.site.id := ((Reaches.under hbw).trans hu).one_le_weight
        have hbc : b = c := hstep.unique hone hw hac hb (Reaches.under hcu).one_le_weight
        refine ih (OneField.under hone hstep.under) ?_ (hbc ▸ hcu)
        exact Nat.le_trans (hstep.under.weight_le _) hw

/-! ### Events and visits -/

theorem mem_traced_of_reaches {p : List Site × Event} (h : Reaches source v w)
    (hp : (p.1, .emit p.2) ∈ w.stages source) : p ∈ traced v.inside (events source v.role v.site) := by
  induction h using Relation.ReflTransGen.head_induction_on with
  | refl => exact mem_traced_events.mpr (Or.inl hp)
  | @head a b hstep _ ih => exact mem_traced_events.mpr (Or.inr ⟨_, _, _, hstep, ih⟩)

theorem exists_reaches_of_mem_traced {p : List Site × Event} {inside : List Site} {role : Role}
    {s : Site} (hp : p ∈ traced inside (events source role s)) :
    ∃ w, Reaches source ⟨inside, role, s⟩ w ∧ (p.1, .emit p.2) ∈ w.stages source := by
  induction role, s using expand_induction source generalizing inside with
  | step role s ih =>
      rcases mem_traced_events.mp hp with h | ⟨inside', r, c, hstep, hp⟩
      · exact ⟨_, .refl, h⟩
      · have hnext : Next source ⟨inside, role, s⟩ ⟨inside', r, c⟩ := hstep
        obtain ⟨w, hw, hpw⟩ := ih r c (mem_of_mem_stages hstep) hp
        exact ⟨w, .head hnext hw, hpw⟩

/-- The events of a site are those emitted by the visits it reaches. -/
theorem mem_traced_events_iff {p : List Site × Event} :
    p ∈ traced v.inside (events source v.role v.site) ↔
      ∃ w, Reaches source v w ∧ (p.1, .emit p.2) ∈ w.stages source :=
  ⟨exists_reaches_of_mem_traced, fun ⟨_, hw, hp⟩ => mem_traced_of_reaches hw hp⟩

/-! ### The visits of a unit -/

/-- The visit is made when a whole unit is read. -/
def Arrives (source : String) (root : Tree) (v : Visit) : Prop :=
  ∃ c ∈ (Site.root root).namedChildren, Reaches source ⟨[Site.root root], .value, c⟩ v

theorem Arrives.step {root : Tree} (h : Arrives source root v) (hvw : Reaches source v w) :
    Arrives source root w := by
  obtain ⟨c, hc, hcv⟩ := h
  exact ⟨c, hc, hcv.trans hvw⟩

theorem Arrives.below {root : Tree} (h : Arrives source root v) :
    ∃ c ∈ (Site.root root).children, Site.Under c v.site := by
  obtain ⟨c, hc, hcv⟩ := h
  exact ⟨c, Site.mem_children_of_mem_namedChildren hc, hcv.under⟩

theorem Arrives.under {root : Tree} (h : Arrives source root v) :
    Site.Under (Site.root root) v.site := by
  obtain ⟨c, hc, hcv⟩ := h.below
  exact (Site.Under.of_child hc).trans hcv

theorem Arrives.mem_inside {root : Tree} (h : Arrives source root v) {r : Site}
    (hr : r ∈ v.inside) : Site.Under r v.site := by
  obtain ⟨c, hc, hcv⟩ := h
  rcases hcv.mem_inside hr with hr | hr
  · rw [List.mem_singleton.mp hr]
    exact (Site.Under.of_child (Site.mem_children_of_mem_namedChildren hc)).trans hcv.under
  · exact hr.2

/-- Every visit of a unit stands inside the unit's own region. -/
theorem Arrives.root_mem_inside {root : Tree} (h : Arrives source root v) :
    Site.root root ∈ v.inside := by
  obtain ⟨_, _, hcv⟩ := h
  exact hcv.suffix.subset (List.mem_singleton_self _)

theorem Arrives.through {root : Tree} (hnum : root.Numbered) (hone : root.OneField)
    (h : Arrives source root v) (h' : Arrives source root w) (hvw : Site.Under v.site w.site) :
    Reaches source v w := by
  obtain ⟨c, hc, hcv⟩ := h
  obtain ⟨d, hd, hdw⟩ := h'
  have hcs := Site.mem_children_of_mem_namedChildren hc
  have hds := Site.mem_children_of_mem_namedChildren hd
  have hcd : c = d := Site.child_unique (s := Site.root root) (hnum.weight_le w.site.id) hcs hds
    (hcv.under.trans hvw).one_le_weight hdw.under.one_le_weight
  subst hcd
  refine Reaches.through (OneField.child (s := Site.root root) hone hcs) ?_ hcv hdw hvw
  exact Nat.le_trans ((Site.Under.of_child hcs).weight_le _) (hnum.weight_le _)

/-- The regions around a site are open around all its events. -/
theorem suffix_of_mem_traced {p : List Site × Event}
    (h : p ∈ traced v.inside (events source v.role v.site)) : v.inside <:+ p.1 := by
  obtain ⟨w, hw, hp⟩ := mem_traced_events_iff.mp h
  rcases inside_of_mem_stages hp with heq | heq
  · exact heq ▸ hw.suffix
  · exact heq ▸ hw.suffix.trans (List.suffix_cons _ _)

theorem mem_traced_unit {root : Tree} {p : List Site × Event} :
    p ∈ traced [] (unitEvents source root) ↔
      p = ([], .enter .module (Site.root root)) ∨ p = ([Site.root root], .leave) ∨
      ∃ v, Arrives source root v ∧ (p.1, .emit p.2) ∈ v.stages source := by
  have hquiet : ∀ x ∈ childSteps (Site.root root), x.Quiet := quiet_visits
  rw [unitEvents_eq, traced_flatMap, unitSteps, stages_region hquiet]
  simp only [List.flatMap_cons, List.flatMap_append, List.flatMap_nil, List.append_nil,
    List.mem_append, Step.traced, Step.events, traced, Scope.stages, List.mem_singleton,
    List.flatMap_map, List.mem_flatMap, childSteps]
  constructor
  · rintro (rfl | ⟨c, hc, hp⟩ | rfl)
    · exact Or.inl rfl
    · obtain ⟨w, hw, hpw⟩ := mem_traced_events_iff (v := ⟨[Site.root root], .value, c⟩).mp hp
      exact Or.inr (Or.inr ⟨w, ⟨c, hc, hw⟩, hpw⟩)
    · exact Or.inr (Or.inl rfl)
  · rintro (rfl | rfl | ⟨v, ⟨c, hc, hw⟩, hp⟩)
    · exact Or.inl rfl
    · exact Or.inr (Or.inr rfl)
    · exact Or.inr (Or.inl ⟨c, hc,
        mem_traced_events_iff (v := ⟨[Site.root root], .value, c⟩).mpr ⟨v, hw, hp⟩⟩)

/-- The events of a unit after the first, which enters its region. -/
def unitBody (source : String) (root : Tree) : List Event :=
  (Site.root root).namedChildren.flatMap (events source .value) ++ [.leave]

/-- All of them are met inside the region. -/
theorem root_mem_of_mem_traced {root : Tree} {p : List Site × Event}
    (h : p ∈ traced [Site.root root] (unitBody source root)) : Site.root root ∈ p.1 := by
  have hbody : unitBody source root =
      (childSteps (Site.root root) ++ [Step.emit .leave]).flatMap (Step.events source) := by
    simp only [unitBody, childSteps, List.flatMap_append, List.flatMap_map]
    rfl
  have hquiet : ∀ x ∈ childSteps (Site.root root), x.shift [Site.root root] = [Site.root root] :=
    fun x hx => (quiet_visits x hx).shift_eq _
  rw [hbody, traced_flatMap, stages_append, stages_of_fixed hquiet, foldl_of_fixed hquiet,
    List.flatMap_append, List.mem_append] at h
  rcases h with h | h
  · rw [List.flatMap_map] at h
    obtain ⟨step, hstep, hp⟩ := List.mem_flatMap.mp h
    obtain ⟨c, -, rfl⟩ := List.mem_map.mp hstep
    exact (suffix_of_mem_traced (v := ⟨[Site.root root], .value, c⟩) hp).subset
      (List.mem_singleton_self _)
  · simp only [Scope.stages, Step.traced, Step.events, traced, List.flatMap_cons, List.flatMap_nil,
      List.append_nil, List.mem_singleton] at h
    rw [h]
    exact List.mem_singleton_self _

end Visit

/-! ### Regions and descent -/

/-- `x` stands in the computed name of the method `m`. -/
def InComputedName (m x : Site) : Prop := ∃ n, ComputesName m n ∧ Site.Under n x

/-- A contribution that refers to `x` or leads to it. -/
def Step.Toward (x : Site) : Step → Prop
  | .emit (.refer _ y _) => y = x
  | .visit _ c => Site.Under c x
  | _ => False

theorem Step.Toward.one_le_load {x : Site} {step : Step} (h : step.Toward x) :
    1 ≤ step.load x.id := by
  match step, h with
  | .emit (.refer _ y _), h => exact h ▸ (Site.Under.self y).one_le_weight
  | .visit _ _, h => exact Site.Under.one_le_weight h

namespace Visit

variable {source : String} {v w : Visit} {inside : List Site}

theorem refer_under {name : String} {x : Site} {access : Access}
    (h : (inside, .emit (.refer name x access)) ∈ v.stages source) :
    Site.Under v.site x ∧ isNameKind x.kind = true := by
  cases leads_of_mem_stages h with
  | refer _ hx hk => exact ⟨hx, hk⟩

theorem refer_name {name : String} {x : Site} {access : Access}
    (h : (inside, .emit (.refer name x access)) ∈ v.stages source) : name = x.text source := by
  cases leads_of_mem_stages h with
  | refer => rfl

theorem enter_site {kind : ScopeKind} {s : Site}
    (h : (inside, .emit (.enter kind s)) ∈ v.stages source) : s = v.site := by
  cases leads_of_mem_stages h with
  | enter => rfl

/-- Every reference of a unit is emitted by a visit. -/
theorem arrives_of_refer {root : Tree} {name : String} {x : Site} {access : Access}
    (h : (inside, .refer name x access) ∈ traced [] (unitEvents source root)) :
    ∃ w, Arrives source root w ∧ (inside, .emit (.refer name x access)) ∈ w.stages source := by
  rcases mem_traced_unit.mp h with h | h | h
  · injection h with _ h
    contradiction
  · injection h with _ h
    contradiction
  · exact h

theorem under_of_enter {root : Tree} {kind : ScopeKind} {s : Site}
    (h : (inside, .enter kind s) ∈ traced [] (unitEvents source root)) :
    Site.Under (Site.root root) s := by
  rcases mem_traced_unit.mp h with h | h | ⟨v, hv, h⟩
  · injection h with _ h
    injection h with _ h
    exact h ▸ .self _
  · injection h with _ h
    contradiction
  · exact enter_site h ▸ hv.under

/-- A region other than the unit's own is opened by a visit, directly inside the regions the
visit stands in. -/
theorem arrives_of_enter {root : Tree} {kind : ScopeKind} {f : Site} (hf : f ≠ Site.root root)
    (h : (inside, .enter kind f) ∈ traced [] (unitEvents source root)) :
    ∃ v, Arrives source root v ∧ v.site = f ∧ v.inside = inside ∧
      .emit (.enter kind f) ∈ expand source v.role v.site := by
  rcases mem_traced_unit.mp h with h | h | ⟨v, hv, hstage⟩
  · injection h with _ h
    injection h with _ h
    exact absurd h hf
  · injection h with _ h
    contradiction
  · have hopens := mem_of_mem_stages hstage
    refine ⟨v, hv, (enter_site hstage).symm, ?_, hopens⟩
    rcases (expand_layout source v.role v.site).stage_cases hopens hstage with heq | heq | ⟨hq, -⟩
    · injection heq with heq
      exact heq.symm
    · injection heq with _ heq
      injection heq with heq
      contradiction
    · exact hq.elim

/-- The computed name of a method is read before its region is opened. -/
theorem next_computedName {kind : ScopeKind} {s n : Site}
    (hopens : .emit (.enter kind s) ∈ expand source v.role v.site) (hn : ComputesName v.site n) :
    Next source v ⟨v.inside, .value, n⟩ := by
  have hexpand : expand source v.role v.site =
      .visit .value n :: functionSteps source v.site := by
    revert hopens
    cases v.role <;>
      simp [expand, expandValue, expandPattern, expandTarget, expandElementName,
        expandElementObject, hn.kind, computedKeySteps, hn.name, hn.computed]
  rw [Next, stages, hexpand]
  exact List.mem_cons_self

/-- The way to a reference below a site that is read goes through one contribution of the site. -/
theorem exists_stage_toward {root : Tree} (hnum : root.Numbered) (hone : root.OneField)
    (hv : Arrives source root v) (hw : Arrives source root w) {name : String} {x : Site}
    {access : Access} (hx : (inside, .emit (.refer name x access)) ∈ w.stages source)
    (hvx : Site.Under v.site x) :
    ∃ p ∈ v.stages source, p.2.Toward x ∧ ∃ front, inside = front ++ p.1 ∧
      ∀ r ∈ front, ∃ d ∈ v.site.children, Site.Under d r ∧ Site.Under r x := by
  have hwx := (refer_under hx).1
  rcases Site.Under.total hvx hwx with hvw | hwv
  · rcases (hv.through hnum hone hw hvw).cases_head with rfl | ⟨u, hstep, huw⟩
    · exact ⟨_, hx, rfl, [], rfl, nofun⟩
    · obtain ⟨d, hd, hdu⟩ := hstep.below
      obtain ⟨front, heq, hfront⟩ := huw.stage_append hx
      exact ⟨_, hstep, huw.under.trans hwx, front, heq, fun r hr =>
        ⟨d, hd, hdu.trans (hfront r hr).1, (hfront r hr).2.trans hwx⟩⟩
  · rcases (hw.through hnum hone hv hwv).cases_head with rfl | ⟨u, hstep, huv⟩
    · exact ⟨_, hx, rfl, [], rfl, nofun⟩
    · -- A site that leads to `v` does not also refer to what lies below `v`.
      have hone' : w.site.tree.OneField := OneField.under (s := Site.root root) hone hw.under
      have hweight : w.site.weight x.id ≤ 1 :=
        Nat.le_trans (hw.under.weight_le _) (hnum.weight_le _)
      have heq := stage_unique hone' hweight hx hstep (Site.Under.self x).one_le_weight
        (huv.under.trans hvx).one_le_weight
      injection heq with _ heq
      contradiction

/-- A reference below a site that opens a region is met inside the region, unless it stands in
the computed name of a method. -/
theorem inside_of_under {root : Tree} (hnum : root.Numbered) (hone : root.OneField)
    (hv : Arrives source root v) {kind : ScopeKind} {s : Site}
    (hopens : .emit (.enter kind s) ∈ expand source v.role v.site) (hw : Arrives source root w)
    {name : String} {x : Site} {access : Access}
    (hx : (inside, .emit (.refer name x access)) ∈ w.stages source) (hvx : Site.Under v.site x) :
    ∃ front, (∀ r ∈ front, ∃ d ∈ v.site.children, Site.Under d r ∧ Site.Under r x) ∧
      (inside = front ++ v.site :: v.inside ∧ ¬ InComputedName v.site x ∨
        inside = front ++ v.inside ∧ InComputedName v.site x) := by
  obtain ⟨p, hp, htoward, front, rfl, hfront⟩ := exists_stage_toward hnum hone hv hw hx hvx
  refine ⟨front, hfront, ?_⟩
  by_cases hname : InComputedName v.site x
  · obtain ⟨n, hn, hnx⟩ := hname
    have hone' : v.site.tree.OneField := OneField.under (s := Site.root root) hone hv.under
    have hweight : v.site.weight x.id ≤ 1 := Nat.le_trans (hv.under.weight_le _) (hnum.weight_le _)
    have heq := stage_unique hone' hweight hp (next_computedName hopens hn) htoward.one_le_load
      hnx.one_le_weight
    exact Or.inr ⟨by rw [heq], n, hn, hnx⟩
  · refine Or.inl ⟨?_, hname⟩
    obtain ⟨around, step⟩ := p
    rcases (expand_layout source v.role v.site).stage_cases hopens hp with heq | heq | ⟨-, heq | hout⟩
    · injection heq with _ heq
      exact (heq ▸ htoward : Step.Toward x (.emit (.enter kind v.site))).elim
    · injection heq with _ heq
      exact (heq ▸ htoward : Step.Toward x (.emit .leave)).elim
    · exact congrArg (front ++ ·) heq
    · -- What stands outside and leads to the reference is the computed name.
      match step, htoward, hout.2 with
      | .visit _ c, hcx, hc => exact absurd ⟨c, hc, hcx⟩ hname

end Visit

/-- A reference is met inside the region of a function exactly when it lies below it. -/
theorem mem_regions_iff_below {source : String} {root : Tree} (hnum : root.Numbered)
    (hone : root.OneField) {f x : Site} (hf : f.kind.isInlineFunction = true) {kind : ScopeKind}
    {outside inside : List Site} {name : String} {access : Access}
    (henter : (outside, .enter kind f) ∈ traced [] (unitEvents source root))
    (hrefer : (inside, .refer name x access) ∈ traced [] (unitEvents source root)) :
    f ∈ inside ↔ x.isBelow f = true := by
  obtain ⟨w, hw, hx⟩ := Visit.arrives_of_refer hrefer
  obtain ⟨hwx, hname⟩ := Visit.refer_under hx
  rw [Site.isBelow_iff hnum (hw.under.trans hwx) (Visit.under_of_enter henter)]
  constructor
  · intro hmem
    have hfx : Site.Under f x := by
      rcases Visit.inside_of_mem_stages hx with heq | heq
      · exact (hw.mem_inside (heq ▸ hmem)).trans hwx
      · rw [heq] at hmem
        rcases List.mem_cons.mp hmem with rfl | hmem
        · exact hwx
        · exact (hw.mem_inside hmem).trans hwx
    rcases hfx.cases_head with heq | hbelow
    · -- An identifier is no function.
      rw [heq] at hname
      revert hf hname
      cases f.kind <;> simp [Kind.isInlineFunction, isNameKind]
    · exact hbelow
  · rintro ⟨c, hc, hcx⟩
    rcases Visit.mem_traced_unit.mp henter with h | h | ⟨v, hv, h⟩
    · cases h
      rcases Visit.inside_of_mem_stages hx with heq | heq
      · exact heq ▸ hw.root_mem_inside
      · exact heq ▸ List.mem_cons_of_mem _ hw.root_mem_inside
    · cases h
    · have hsite := Visit.enter_site h
      subst hsite
      obtain ⟨front, -, ⟨heq, -⟩ | ⟨-, n, hn, -⟩⟩ := Visit.inside_of_under hnum hone hv
        (mem_of_mem_stages h) hw hx ((Site.Under.of_child hc).trans hcx)
      · rw [heq]
        exact List.mem_append_right _ List.mem_cons_self
      · rw [hn.kind] at hf
        contradiction

end HookLint.Scope
