/-
A callback and what stands beside it.

Reading goes from a wrapper to what it wraps and from a list of arguments to every
argument, and in no other way to any of these: the nodes that are passed over on the
way down are none of them.  So a callback that is read at all is read from the list
of arguments it stands in, and the argument after it is read in the same regions
(`Hook.arrives_dependencies`).
-/
import HookLint.Hook.Call
import HookLint.Proofs.Visits
import Mathlib.Data.Option.Basic

namespace HookLint.Scope.Visit

open HookLint.Syntax

variable {source : String} {root : Tree} {v w : Visit}

/-! ### The last step to a visit -/

/-- A visit is made to a child of the unit, or from another visit. -/
theorem Arrives.cases_tail (h : Arrives source root v) :
    v.site ∈ (Site.root root).children ∨ ∃ u, Arrives source root u ∧ Next source u v := by
  obtain ⟨c, hc, hcv⟩ := h
  rcases Relation.ReflTransGen.cases_tail hcv with heq | ⟨u, hu, huv⟩
  · subst heq
    exact Or.inl (Site.mem_children_of_mem_namedChildren hc)
  · exact Or.inr ⟨u, ⟨c, hc, hu⟩, huv⟩

/-- A site below another is no child of the unit. -/
theorem ne_root_of_mem_children {y d : Site} (h : d ∈ y.children) : d ≠ Site.root root := by
  rintro rfl
  have := Site.above_of_mem_children h
  contradiction

theorem ne_root_of_under {y d x : Site} (h : d ∈ y.children) (hx : Site.Under d x) :
    x ≠ Site.root root := by
  cases hx with
  | self => exact ne_root_of_mem_children h
  | child _ hc => exact ne_root_of_mem_children hc

/-- What is read other than as a pattern is read from its parent, or from the parent of a node
that is passed over. -/
theorem Arrives.from_parent (h : Arrives source root v) (hrole : v.role.isPattern = false) {y : Site}
    (hy : v.site ∈ y.children) (hroot : y ≠ Site.root root) :
    ∃ u, Arrives source root u ∧ Next source u v ∧
      (u.site = y ∨ y ∈ u.site.children ∧ isPassedOver y.kind = true) := by
  rcases h.cases_tail with hmem | ⟨u, hu, huv⟩
  · exact absurd (Site.eq_of_mem_children hy hmem) hroot
  · refine ⟨u, hu, huv, ?_⟩
    cases leads_of_mem_stages huv with
    | child _ hc => exact Or.inl (Site.eq_of_mem_children hc hy)
    | grandchild _ hd hc hskip =>
        have hdy := Site.eq_of_mem_children hc hy
        subst hdy
        exact Or.inr ⟨hd, hskip.resolve_left (by simp [hrole])⟩

/-- Where nothing enters a region, what a site leads to stands in the same regions. -/
theorem inside_of_quiet (hquiet : ∀ x ∈ expand source v.role v.site, x.Quiet) {inside : List Site}
    {step : Step} (h : (inside, step) ∈ v.stages source) : inside = v.inside := by
  rw [stages, stages_of_fixed fun x hx => (hquiet x hx).shift_eq v.inside] at h
  obtain ⟨x, -, hx⟩ := List.mem_map.mp h
  injection hx with hx _
  exact hx.symm

theorem next_of_quiet (hquiet : ∀ x ∈ expand source v.role v.site, x.Quiet) {r : Role} {c : Site}
    (h : .visit r c ∈ expand source v.role v.site) : Next source v ⟨v.inside, r, c⟩ := by
  rw [Next, stages, stages_of_fixed fun x hx => (hquiet x hx).shift_eq v.inside]
  exact List.mem_map.mpr ⟨_, h, rfl⟩

/-! ### Wrappers -/

theorem isTransparent_of_wrapped? {y x : Site} (h : y.wrapped? = some x) :
    y.kind.isTransparent = true := by
  unfold Site.wrapped? at h
  split at h
  · rw [‹y.kind = _›]; rfl
  · rw [‹y.kind = _›]; rfl
  · rw [‹y.kind = _›]; rfl
  · contradiction

/-- A wrapper opens no region and declares nothing. -/
theorem expand_wrapper (source : String) (role : Role) {y : Site} (h : y.kind.isTransparent = true) :
    (∀ x ∈ expand source role y, x.Quiet) ∧
      (∀ r c, .visit r c ∈ expand source role y → r.isPattern = false ∧ role.isPattern = false) := by
  constructor
  · refine quiet_expand fun _ => ?_
    revert h
    cases y.kind <;> simp [Kind.isTransparent, opensRegion]
  · intro r c hvisit
    refine (not_isPattern_of_visit ?_ (fun b steps => ?_) hvisit).symm
    · revert h
      cases y.kind <;> simp [Kind.isTransparent, isBinding]
    · revert h
      unfold expandPattern
      cases y.kind <;> simp [Kind.isTransparent]

/-- A cast leads to its operand only. -/
theorem expand_cast {role r : Role} {y operand c : Site} (hcast : y.castOperand? = some operand)
    (h : .visit r c ∈ expand source role y) : c = operand := by
  have hkind := Site.kind_of_castOperand? hcast
  have hwrapped := Site.wrapped?_of_castOperand? hcast
  cases role <;>
    simp [expand, expandValue, expandTarget, expandPattern, expandElementName,
      expandElementObject, hkind, hcast, hwrapped] at h <;>
    exact h.2

/-- What a wrapper wraps is read from the wrapper. -/
theorem Arrives.from_wrapper (h : Arrives source root v) (hrole : v.role.isPattern = false)
    {y : Site} (hy : y.wrapped? = some v.site) (hroot : y ≠ Site.root root) :
    ∃ u, Arrives source root u ∧ u.site = y ∧ u.inside = v.inside ∧ u.role.isPattern = false := by
  have hwrapper := isTransparent_of_wrapped? hy
  have hnotPassed : isPassedOver y.kind = false := by
    revert hwrapper
    cases y.kind <;> simp [Kind.isTransparent, isPassedOver]
  -- Once the wrapper is known to lead here, it does so in its own regions.
  have hfinish : ∀ {u}, Arrives source root u → Next source u v → u.site = y →
      ∃ u, Arrives source root u ∧ u.site = y ∧ u.inside = v.inside ∧ u.role.isPattern = false := by
    intro u hu huv hsite
    obtain ⟨hquiet, hvisit⟩ := expand_wrapper source u.role (hsite ▸ hwrapper)
    exact ⟨u, hu, hsite, (inside_of_quiet hquiet huv).symm, (hvisit _ _ (mem_of_mem_stages huv)).2⟩
  rcases Site.mem_of_wrapped? hy with hmem | ⟨hcast, d, hd, hkind, hmem⟩
  · obtain ⟨u, hu, huv, hsite | ⟨-, hpassed⟩⟩ := h.from_parent hrole hmem hroot
    · exact hfinish hu huv hsite
    · rw [hnotPassed] at hpassed
      contradiction
  · obtain ⟨u, hu, huv, hsite | ⟨hdu, -⟩⟩ :=
      h.from_parent hrole hmem (ne_root_of_mem_children hd)
    · -- The error node itself is not read: a cast leads to its operand only.
      exfalso
      have hpattern : u.role.isPattern = false := by
        have hvisit : .visit v.role v.site ∈ expand source u.role u.site := mem_of_mem_stages huv
        rw [hsite] at hvisit
        revert hvisit
        cases u.role <;> simp [expand, expandPattern, hkind, Role.isPattern]
      obtain ⟨t, ht, htu, hts | ⟨-, hpassed⟩⟩ := hu.from_parent hpattern (hsite ▸ hd) hroot
      · have heq := expand_cast (hts ▸ hcast) (mem_of_mem_stages htu)
        have hlt := Site.sizeOf_lt_of_mem_children hmem
        rw [← hsite, heq] at hlt
        exact Nat.lt_irrefl _ hlt
      · rw [hnotPassed] at hpassed
        contradiction
    · exact hfinish hu huv (Site.eq_of_mem_children hdu hd)

theorem under_of_wrapped? {y x : Site} (h : y.wrapped? = some x) : Site.Under y x := by
  rcases Site.mem_of_wrapped? h with hmem | ⟨-, d, hd, -, hmem⟩
  · exact .of_child hmem
  · exact .child (.of_child hd) hmem

theorem under_unwrap (s : Site) : Site.Under s s.unwrap := by
  fun_induction Site.unwrap s with
  | case1 s inner hw ih => exact (under_of_wrapped? hw).trans ih
  | case2 s => exact .self s

theorem unwrap_of_not_isTransparent {s : Site} (h : s.kind.isTransparent = false) : s.unwrap = s := by
  rw [Site.unwrap]
  split
  · rename_i hw
    rw [isTransparent_of_wrapped? hw] at h
    contradiction
  · rfl

/-- Between an expression and what it wraps there are wrappers only, and errors in casts. -/
theorem between_unwrap {s x : Site} (hw : ∀ i, s.weight i ≤ 1) (hx : Site.Under s x)
    (hu : Site.Under x s.unwrap) :
    x = s.unwrap ∨ x.kind.isTransparent = true ∨ x.kind = .error := by
  fun_induction Site.unwrap s with
  | case1 s inner hwrapped ih =>
      have hinner : Site.Under inner inner.unwrap := under_unwrap inner
      have hchild : ∀ {p c d : Site}, Site.Under s p → c ∈ p.children → d ∈ p.children →
          Site.Under c inner.unwrap → Site.Under d inner.unwrap → c = d :=
        fun hp hc hd hcu hdu => Site.child_unique (Nat.le_trans (hp.weight_le _) (hw _)) hc hd
          hcu.one_le_weight hdu.one_le_weight
      have hweight : ∀ i, inner.weight i ≤ 1 :=
        fun i => Nat.le_trans ((under_of_wrapped? hwrapped).weight_le i) (hw i)
      rcases hx.cases_head with rfl | ⟨c, hc, hcx⟩
      · exact Or.inr (Or.inl (isTransparent_of_wrapped? hwrapped))
      · rcases Site.mem_of_wrapped? hwrapped with hmem | ⟨-, d, hd, hkd, hmem⟩
        · have hcinner := hchild (.self s) hc hmem (hcx.trans hu) hinner
          exact ih hweight (hcinner ▸ hcx) hu
        · have hcd := hchild (.self s) hc hd (hcx.trans hu) ((Site.Under.of_child hmem).trans hinner)
          subst hcd
          rcases hcx.cases_head with rfl | ⟨c', hc', hcx'⟩
          · exact Or.inr (Or.inr hkd)
          · have hcinner := hchild (.of_child hc) hc' hmem (hcx'.trans hu) hinner
            exact ih hweight (hcinner ▸ hcx') hu
  | case2 s _ =>
      rcases hx.cases_head with rfl | ⟨c, hc, hcx⟩
      · exact Or.inl rfl
      · exact absurd rfl ((hcx.trans hu).ne_of_child hc)

/-- An expression is read where what it wraps is read. -/
theorem Arrives.from_unwrap {s : Site} (hs : s ≠ Site.root root) (h : Arrives source root v)
    (hrole : v.role.isPattern = false) (hsite : v.site = s.unwrap) :
    ∃ u, Arrives source root u ∧ u.site = s ∧ u.inside = v.inside ∧ u.role.isPattern = false := by
  fun_induction Site.unwrap s with
  | case1 s inner hw ih =>
      have hinner : inner ≠ Site.root root := by
        rcases Site.mem_of_wrapped? hw with hmem | ⟨-, d, -, -, hmem⟩
        · exact ne_root_of_mem_children hmem
        · exact ne_root_of_mem_children hmem
      obtain ⟨u, hu, husite, hinside, hurole⟩ := ih hinner hsite
      obtain ⟨t, ht, htsite, htinside, htrole⟩ := hu.from_wrapper hurole (husite ▸ hw) hs
      exact ⟨t, ht, htsite, htinside.trans hinside, htrole⟩
  | case2 => exact ⟨v, h, hsite, rfl, hrole⟩

/-! ### Lists of arguments -/

/-- A list of arguments leads to every argument, as a value. -/
theorem expand_arguments (source : String) (role : Role) {s : Site} (h : s.kind = .arguments) :
    expand source role s = childSteps s ∨ expand source role s = [] := by
  cases role <;>
    simp [expand, expandValue, expandTarget, expandPattern, expandElementName,
      expandElementObject, h]

/-- Where one argument is read, all are, in the same regions. -/
theorem Arrives.siblings {arguments c d : Site} (hkind : arguments.kind = .arguments)
    (hroot : arguments ≠ Site.root root) (h : Arrives source root v)
    (hrole : v.role.isPattern = false) (hc : c ∈ arguments.namedChildren) (hsite : v.site = c)
    (hd : d ∈ arguments.namedChildren) : Arrives source root ⟨v.inside, .value, d⟩ := by
  have hchild : v.site ∈ arguments.children :=
    hsite ▸ Site.mem_children_of_mem_namedChildren hc
  obtain ⟨u, hu, huv, husite | ⟨-, hpassed⟩⟩ := h.from_parent hrole hchild hroot
  · have hvisit : .visit v.role v.site ∈ expand source u.role u.site := mem_of_mem_stages huv
    have hexpand : expand source u.role u.site = childSteps u.site := by
      rcases expand_arguments source u.role (husite ▸ hkind) with heq | heq
      · exact heq
      · rw [heq] at hvisit
        contradiction
    have hquiet : ∀ x ∈ expand source u.role u.site, x.Quiet := by
      rw [hexpand]
      exact quiet_visits
    have hnext : Next source u ⟨u.inside, .value, d⟩ := by
      refine next_of_quiet hquiet ?_
      rw [hexpand, husite]
      exact List.mem_map.mpr ⟨d, hd, rfl⟩
    rw [inside_of_quiet hquiet huv]
    exact hu.step (.single hnext)
  · rw [hkind] at hpassed
    contradiction

/-- What opens a region is not read as a pattern. -/
theorem isPattern_of_enter {kind : ScopeKind} {f : Site}
    (h : .emit (.enter kind f) ∈ expand source v.role v.site) : v.role.isPattern = false := by
  cases offers_of_mem_expand h with
  | enter _ hrole => cases hv : v.role <;> simp_all [Role.isExpression, Role.isPattern]

end HookLint.Scope.Visit

/-! ### Hook calls -/

namespace HookLint.Hook

open HookLint.Syntax HookLint.Scope

variable {source : String} {convention : Convention}

theorem Search.next?_under {top : Site} {s t : Search} {call : Call}
    (hs : ∀ p ∈ s.pending, Site.Under top p) (h : s.next? source convention = some (call, t)) :
    (∃ site, Site.Under top site ∧ site.kind = .call ∧
        Call.ofSite? source convention site = some call) ∧
      ∀ p ∈ t.pending, Site.Under top p := by
  have hexpand : ∀ {site : Site} {rest : List Site}, (∀ p ∈ site :: rest, Site.Under top p) →
      ∀ p ∈ site.namedChildren ++ rest, Site.Under top p := by
    intro site rest hall p hp
    rcases List.mem_append.mp hp with hp | hp
    · exact .child (hall site List.mem_cons_self) (Site.mem_children_of_mem_namedChildren hp)
    · exact hall p (List.mem_cons_of_mem _ hp)
  fun_induction Search.next? source convention s with
  | case1 => contradiction
  | case2 site rest remaining found hfound =>
      injection h with h
      injection h with hcall ht
      subst hcall
      subst ht
      split at hfound
      · exact ⟨⟨site, hs site List.mem_cons_self, ‹_›, hfound⟩, hexpand hs⟩
      · contradiction
  | case3 site rest remaining _ ih => exact ih (hexpand hs) h

theorem Search.toList_under {top : Site} {s : Search} (hs : ∀ p ∈ s.pending, Site.Under top p)
    {call : Call} (h : call ∈ s.toList source convention) :
    ∃ site, Site.Under top site ∧ site.kind = .call ∧
      Call.ofSite? source convention site = some call := by
  fun_induction Search.toList source convention s with
  | case1 => contradiction
  | case2 s found rest hnext ih =>
      obtain ⟨hfound, hrest⟩ := Search.next?_under hs hnext
      rcases List.mem_cons.mp h with rfl | h
      · exact hfound
      · exact ih hrest h

/-- The parts of a hook call: its arguments and the one that holds the callback. -/
structure Call.Parts (call : Call) (list argument : Site) : Prop where
  arguments : call.site.field? .arguments = some list
  kind : list.kind = .arguments
  item : list.namedChildren[call.callbackIndex]? = some argument
  callback : call.callback = argument.unwrap
  inline : call.callback.kind.isInlineFunction = true
  dependencies : call.dependencies = list.namedChildren[call.callbackIndex + 1]?

theorem Call.parts_of_ofSite? {site : Site} {call : Call}
    (h : Call.ofSite? source convention site = some call) :
    call.site = site ∧ ∃ list argument, call.Parts list argument := by
  simp only [Call.ofSite?, Option.bind_eq_bind, Option.bind_eq_some_iff, Option.guard_eq_some',
    Option.pure_def, Option.some.injEq] at h
  obtain ⟨callee, -, name, -, -, -, list, hlist, -, hkind, argument, hitem, -, hinline, rfl⟩ := h
  exact ⟨rfl, list, argument, hlist, hkind, hitem, rfl, hinline, rfl⟩

/-- The name of a hook call is read off its callee, and says which argument is the callback. -/
theorem Call.name_of_ofSite? {site : Site} {call : Call}
    (h : Call.ofSite? source convention site = some call) :
    (site.field? .function).bind (·.calleeName? source) = some call.name ∧
      call.callbackIndex = Hook.callbackIndex call.name := by
  simp only [Call.ofSite?, Option.bind_eq_bind, Option.bind_eq_some_iff, Option.guard_eq_some',
    Option.pure_def, Option.some.injEq] at h
  obtain ⟨callee, hcallee, name, hname, -, -, -, -, -, -, -, -, -, -, rfl⟩ := h
  rw [hcallee]
  exact ⟨hname, rfl⟩

/-- When a call expression is a hook call: the callee has the name of a hook, and the argument
that holds the callback is an inline function. -/
theorem Call.exists_ofSite?_iff {site : Site} :
    (∃ call, Call.ofSite? source convention site = some call) ↔
      ∃ name list argument, (site.field? .function).bind (·.calleeName? source) = some name ∧
        convention.isHook name = true ∧ site.field? .arguments = some list ∧
        list.kind = .arguments ∧ list.namedChildren[Hook.callbackIndex name]? = some argument ∧
        argument.unwrap.kind.isInlineFunction = true := by
  simp only [Call.ofSite?, Option.bind_eq_bind, Option.bind_eq_some_iff, Option.guard_eq_some',
    Option.pure_def, Option.some.injEq]
  constructor
  · rintro ⟨call, callee, hcallee, name, hname, -, hhook, list, hlist, -, hkind, argument, hitem,
      -, hinline, -⟩
    exact ⟨name, list, argument, ⟨callee, hcallee, hname⟩, hhook, hlist, hkind, hitem, hinline⟩
  · rintro ⟨name, list, argument, ⟨callee, hcallee, hname⟩, hhook, hlist, hkind, hitem, hinline⟩
    exact ⟨_, callee, hcallee, name, hname, (), hhook, list, hlist, (), hkind, argument, hitem, (),
      hinline, rfl⟩

/-- A hook call of a unit is one of its call expressions. -/
theorem site_of_mem_calls {root : Tree} {call : Call} (h : call ∈ calls source convention root) :
    Site.Under (Site.root root) call.site ∧ call.site.kind = .call ∧
      Call.ofSite? source convention call.site = some call := by
  have hpending : ∀ p ∈ (Search.ofRoot root).pending, Site.Under (Site.root root) p := by
    intro p hp
    rw [List.mem_singleton.mp hp]
    exact .self _
  obtain ⟨site, hunder, hkind, hsite⟩ := Search.toList_under hpending h
  obtain ⟨rfl, -⟩ := Call.parts_of_ofSite? hsite
  exact ⟨hunder, hkind, hsite⟩

/-- The first hook call of a unit. -/
def firstCall (source : String) (root : Tree) (h : (calls source .default root).isEmpty = false) :
    Call :=
  (calls source .default root).head (by simpa using h)

theorem firstCall_mem {root : Tree} (h : (calls source .default root).isEmpty = false) :
    firstCall source root h ∈ calls source .default root :=
  List.head_mem _

theorem parts_of_mem_calls {root : Tree} {call : Call} (h : call ∈ calls source convention root) :
    Site.Under (Site.root root) call.site ∧ ∃ list argument, call.Parts list argument := by
  obtain ⟨hunder, -, hsite⟩ := site_of_mem_calls h
  exact ⟨hunder, (Call.parts_of_ofSite? hsite).2⟩

theorem Call.Parts.callback_under {call : Call} {list argument top : Site}
    (h : call.Parts list argument) (hcall : Site.Under top call.site) :
    Site.Under top call.callback := by
  have hlist := Site.mem_children_of_field? h.arguments
  have hitem := Site.mem_children_of_mem_namedChildren (List.mem_of_getElem? h.item)
  exact h.callback ▸ (Site.Under.child (.child hcall hlist) hitem).trans (Visit.under_unwrap argument)

theorem Call.Parts.callback_ne_root {call : Call} {list argument : Site} {root : Tree}
    (h : call.Parts list argument) : call.callback ≠ Site.root root :=
  h.callback ▸ Visit.ne_root_of_under
    (Site.mem_children_of_mem_namedChildren (List.mem_of_getElem? h.item))
    (Visit.under_unwrap argument)

/-- Nothing in the dependency argument of a hook call is below its callback. -/
theorem not_isBelow_callback {root : Tree} (hnum : root.Numbered) {call : Call}
    (hcall : call ∈ calls source convention root) {deps x : Site}
    (hdeps : call.dependencies = some deps) (hx : Site.Under deps x) :
    x.isBelow call.callback = false := by
  obtain ⟨hunder, list, argument, hparts⟩ := parts_of_mem_calls hcall
  have hlist : Site.Under (Site.root root) list :=
    .child hunder (Site.mem_children_of_field? hparts.arguments)
  have hitem := hparts.dependencies ▸ hdeps
  have hmem := Site.mem_children_of_mem_namedChildren (List.mem_of_getElem? hitem)
  rw [← Bool.not_eq_true, Site.isBelow_iff hnum (.trans (.child hlist hmem) hx)
    (hparts.callback_under hunder)]
  rintro ⟨c, hc, hcx⟩
  have hargument : Site.Under argument x :=
    ((hparts.callback ▸ Visit.under_unwrap argument).trans (.of_child hc)).trans hcx
  obtain ⟨hi, hargs⟩ := List.getElem?_eq_some_iff.mp hparts.item
  obtain ⟨hj, hdeps'⟩ := List.getElem?_eq_some_iff.mp hitem
  have hdisjoint := List.pairwise_iff_getElem.mp (Site.pairwise_namedChildren hnum hlist)
    _ _ hi hj (Nat.lt_succ_self _)
  rw [hargs, hdeps'] at hdisjoint
  exact hdisjoint _ (Site.mem_ids_of_under hargument) (Site.mem_ids_of_under hx)

/-- What an argument wraps is wrapped into an argument of one call only. -/
theorem eq_of_unwrap_eq {root : Tree} (hnum : root.Numbered) {s t list list' c d : Site}
    (hs : Site.Under (Site.root root) s) (hkind : s.kind = .call) (hlist : list ∈ s.children)
    (hc : c ∈ list.children) (ht : Site.Under (Site.root root) t) (hlist' : list' ∈ t.children)
    (hkind' : list'.kind = .arguments) (hd : d ∈ list'.children) (h : c.unwrap = d.unwrap) :
    s = t := by
  have hweight : ∀ {x : Site}, Site.Under (Site.root root) x → ∀ i, x.weight i ≤ 1 :=
    fun hx i => Nat.le_trans (hx.weight_le i) (hnum.weight_le i)
  -- A node strictly between an argument and what it wraps is neither a call nor a list.
  have hbetween : ∀ {a x y : Site}, Site.Under (Site.root root) a → Site.Under a x →
      y ∈ x.children → Site.Under y a.unwrap → x.kind ≠ .call ∧ x.kind ≠ .arguments := by
    intro a x y ha hax hy hyu
    rcases Visit.between_unwrap (hweight ha) hax ((Site.Under.of_child hy).trans hyu) with
      heq | hwrapper | herror
    · exact absurd heq.symm (hyu.ne_of_child hy)
    · constructor <;> (intro hk; rw [hk] at hwrapper; contradiction)
    · simp [herror]
  have hcu : Site.Under c c.unwrap := Visit.under_unwrap c
  have hdu : Site.Under d d.unwrap := Visit.under_unwrap d
  rcases hcu.total (h ▸ hdu) with hcd | hdc
  · cases hcd with
    | self => exact Site.eq_of_mem_children hlist (Site.eq_of_mem_children hd hc ▸ hlist')
    | child hct hmem =>
        rw [Site.eq_of_mem_children hmem hd] at hct
        exact absurd hkind'
          (hbetween (.child (.child hs hlist) hc) hct hd (h ▸ hdu)).2
  · have hdroot : Site.Under (Site.root root) d := .child (.child ht hlist') hd
    cases hdc with
    | self => exact Site.eq_of_mem_children hlist (Site.eq_of_mem_children hd hc ▸ hlist')
    | child hct hmem =>
        rw [Site.eq_of_mem_children hmem hc] at hct
        cases hct with
        | self =>
            rw [Site.eq_of_mem_children hlist hd, hkind'] at hkind
            contradiction
        | child hds hmem' =>
            rw [Site.eq_of_mem_children hmem' hlist] at hds
            exact absurd hkind
              (hbetween hdroot hds hlist ((Site.Under.of_child hc).trans (h ▸ hcu))).1

/-- The dependency argument of a hook call is read in the regions its callback is entered in. -/
theorem arrives_dependencies {root : Tree} {call : Call} (hcall : call ∈ calls source convention root)
    {deps : Site} (hdeps : call.dependencies = some deps) {inside : List Site} {kind : ScopeKind}
    (henter : (inside, .enter kind call.callback) ∈ traced [] (unitEvents source root)) :
    Visit.Arrives source root ⟨inside, .value, deps⟩ := by
  obtain ⟨-, list, argument, hparts⟩ := parts_of_mem_calls hcall
  have hitem := List.mem_of_getElem? hparts.item
  have hchild := Site.mem_children_of_mem_namedChildren hitem
  obtain ⟨v, hv, hvsite, hvinside, hopens⟩ :=
    Visit.arrives_of_enter hparts.callback_ne_root henter
  obtain ⟨u, hu, husite, huinside, hurole⟩ := hv.from_unwrap
    (Visit.ne_root_of_mem_children hchild) (Visit.isPattern_of_enter hopens)
    (hvsite.trans hparts.callback)
  have hmem : deps ∈ list.namedChildren := List.mem_of_getElem? (hparts.dependencies ▸ hdeps)
  have hlist : list ≠ Site.root root :=
    Visit.ne_root_of_mem_children (Site.mem_children_of_field? hparts.arguments)
  have harrives := hu.siblings hparts.kind hlist hurole hitem husite hmem
  rwa [huinside, hvinside] at harrives

end HookLint.Hook
