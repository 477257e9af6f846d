/-
Stability after an edit.

A binding is classified by its initializer, which stands outside of the array
(`Outside.initializer`), and by what the names in it mean, which stays the same
(`resolvedAt?_site`).  Classification looks into an array for one thing, whether a
memoizing call has an empty one, and the array of an edit belongs to one call only.
So at most the variables that hold the result of that call change, and since an alias
passes on nothing but the result of a safe hook, no other does (`classifyWithin_site`).
-/
import HookLint.Dependency.Stability
import HookLint.Proofs.Edit.Reads
import HookLint.Proofs.Declarations

/-! ### Results that rest on an array -/

namespace HookLint.Scope

open HookLint.Syntax

/-- The value a variable is declared with. -/
def Binding.value? (b : Binding) : Option Site :=
  match b.kind with
  | .variable _ => b.init.map (·.unwrap)
  | _ => none

end HookLint.Scope

namespace HookLint.Dependency

open HookLint.Syntax HookLint.Scope

theorem chainRoot?_eq (s : Site) : chainRoot? s =
    match s.unwrap.kind with
    | .identifier => some s.unwrap
    | .member | .subscript => (s.unwrap.field? .object).bind chainRoot?
    | _ => none := by
  rw [chainRoot?]
  split
  case h_2 => split <;> simp [*]
  case h_3 => split <;> simp [*]
  all_goals simp [*]

namespace Classifier

/-- The classifier of a source unit. -/
def ofUnit (source : String) (root : Tree) (convention : Hook.Convention)
    (scope : Option ScopeId) : Classifier :=
  { graph := Graph.build source root, source, convention, renderScope := scope }

@[simp] theorem graph_ofUnit (source : String) (root : Tree) (convention : Hook.Convention)
    (scope : Option ScopeId) :
    (ofUnit source root convention scope).graph = Graph.build source root := rfl

@[simp] theorem source_ofUnit (source : String) (root : Tree) (convention : Hook.Convention)
    (scope : Option ScopeId) : (ofUnit source root convention scope).source = source := rfl

@[simp] theorem convention_ofUnit (source : String) (root : Tree) (convention : Hook.Convention)
    (scope : Option ScopeId) :
    (ofUnit source root convention scope).convention = convention := rfl

@[simp] theorem renderScope_ofUnit (source : String) (root : Tree) (convention : Hook.Convention)
    (scope : Option ScopeId) : (ofUnit source root convention scope).renderScope = scope := rfl

/-- How a variable behaves that gets a value, if the bindings that `follow` accepts are results of
safe hooks. -/
def ofValue (c : Classifier) (follow : BindingId → Bool) (binding : Binding) (init : Site) :
    Stability :=
  if init.construction?.isSome then .reactive
  else if binding.pattern.isEmpty && binding.isConst && init.isPrimitive then
    .stable .constantLiteral
  else if init.kind = .call then c.resultStability init binding.pattern
  else if (c.aliasOf? init).any follow then .stable .safeHook
  else .reactive

/-- How a binding behaves, seen from the bindings it may be an alias of. -/
def classifyVia (c : Classifier) (follow : BindingId → Bool) (b : BindingId) : Stability :=
  if !c.isRenderScoped b then .external
  else ((c.graph.bindings[b]?).bind fun binding =>
    binding.value?.map (c.ofValue follow binding)).getD .reactive

theorem classifyWithin_zero (c : Classifier) (b : BindingId) :
    c.classifyWithin 0 b = c.classifyVia (fun _ => false) b := by
  unfold classifyWithin classifyVia
  cases c.graph.bindings[b]? with
  | none => rfl
  | some binding =>
      obtain ⟨_, kind, _, _, _, init, _⟩ := binding
      cases kind <;> cases init <;> simp [Binding.value?, ofValue]

theorem classifyWithin_succ (c : Classifier) (limit : Nat) (b : BindingId) :
    c.classifyWithin (limit + 1) b =
      c.classifyVia (fun t => c.classifyWithin limit t = .stable .safeHook) b := by
  unfold classifyVia
  rw [classifyWithin]
  cases c.graph.bindings[b]? with
  | none => rfl
  | some binding =>
      obtain ⟨_, kind, _, _, _, init, _⟩ := binding
      cases init with
      | none => cases kind <;> simp [Binding.value?]
      | some init =>
          cases halias : c.aliasOf? init.unwrap with
          | none => cases kind <;> simp [Binding.value?, ofValue, halias]
          | some target => cases kind <;> simp [Binding.value?, ofValue, halias]

/-- Calls of the same hook have results of the same stability, if an array that is asked for is
empty in both or in neither. -/
theorem resultStability_congr {c c' : Classifier} {s s' : Site} {pattern : List PatternStep}
    (hconvention : c'.convention = c.convention)
    (hcallee : (s'.field? .function).bind (·.calleeName? c'.source) =
      (s.field? .function).bind (·.calleeName? c.source))
    (hempty : ∀ name, (s.field? .function).bind (·.calleeName? c.source) = some name →
      (name = "useMemo" ∨ name = "useCallback") → pattern = [] → c.safeResult name [] = false →
      hasEmptyDependencies s' = hasEmptyDependencies s) :
    c'.resultStability s' pattern = c.resultStability s pattern := by
  have hsafe : ∀ name, c'.safeResult name pattern = c.safeResult name pattern := by
    intro name
    rw [safeResult, safeResult, hconvention]
  unfold resultStability
  rw [hcallee]
  split
  · rfl
  · rename_i name hname
    rw [hsafe]
    split
    · rfl
    · rename_i hunsafe
      have hlast : ((name = "useMemo" ∨ name = "useCallback") ∧ pattern = [] ∧
          hasEmptyDependencies s' = true) ↔ ((name = "useMemo" ∨ name = "useCallback") ∧
            pattern = [] ∧ hasEmptyDependencies s = true) := by
        refine and_congr_right fun hmemo => and_congr_right fun hpattern => ?_
        rw [hempty name hname hmemo hpattern (by simpa [hpattern] using hunsafe)]
      simp only [hlast]

/-- The binding holds the result of a memoizing call, and only an empty array makes it stable. -/
structure Rests (c : Classifier) (call : Site) (b : BindingId) : Prop where
  renderScoped : c.isRenderScoped b = true
  held : ∃ binding, c.graph.bindings[b]? = some binding ∧ binding.pattern = [] ∧
    binding.value? = some call
  memoizes : ∃ name, (call.field? .function).bind (·.calleeName? c.source) = some name ∧
    (name = "useMemo" ∨ name = "useCallback") ∧ c.safeResult name [] = false

variable {c : Classifier} {call : Site} {b : BindingId}

/-- A result that rests on an array is as stable as the array is empty. -/
theorem Rests.classifyVia (h : c.Rests call b) (hk : call.kind = .call)
    (follow : BindingId → Bool) : c.classifyVia follow b =
      if hasEmptyDependencies call then .stable .memoized else .reactive := by
  obtain ⟨binding, hb, hpattern, hvalue⟩ := h.held
  obtain ⟨name, hname, hmemo, hsafe⟩ := h.memoizes
  have hunwrap : call.unwrap = call := Visit.unwrap_of_not_isTransparent (by rw [hk]; rfl)
  have hfresh : call.construction? = none := by rw [Site.construction?_eq, hunwrap, hk]
  have hprimitive : call.isPrimitive = false := by simp [Site.isPrimitive, hunwrap, hk]
  have hresult : c.resultStability call [] =
      if hasEmptyDependencies call then .stable .memoized else .reactive := by
    unfold resultStability
    rw [hname]
    rcases hmemo with rfl | rfl <;> simp [hsafe, stateHooks]
  unfold Classifier.classifyVia ofValue
  simp [h.renderScoped, hb, hvalue, hpattern, hfresh, hprimitive, hk, hresult]

theorem Rests.classifyWithin (h : c.Rests call b) (hk : call.kind = .call) (limit : Nat) :
    c.classifyWithin limit b =
      if hasEmptyDependencies call then .stable .memoized else .reactive := by
  cases limit with
  | zero => rw [classifyWithin_zero, h.classifyVia hk]
  | succ limit => rw [classifyWithin_succ, h.classifyVia hk]

end Classifier

end HookLint.Dependency

namespace HookLint.Syntax.Edit

open HookLint.Scope HookLint.Dependency

/-! ### Units -/

/-- The edit takes a source unit to a source unit, and no entry is more than a reference. -/
structure Valid (e : Edit) (root : Tree) : Prop extends e.Fits root where
  numbered : root.Numbered
  numbered_tree : (e.tree root).Numbered
  oneField : root.OneField
  oneField_tree : (e.tree root).OneField
  quiet : QuietBelow e.array root
  quiet_entries : ∀ c ∈ e.entries, ∀ t ∈ c.subtrees, isBinding t.kind = false

variable {e : Edit} {root : Tree} {s : Site}

theorem Outside.under_site (hs : e.Outside root s) :
    Site.Under (Site.root (e.tree root)) (e.site s) := by
  obtain ⟨hunder, habove⟩ := hs
  induction hunder with
  | self => exact .self _
  | @child t c ht hc ih =>
      rw [Site.above_of_mem_children hc] at habove
      have hne : t.id ≠ e.array := habove _ List.mem_cons_self
      refine .child (ih fun p hp => habove p (List.mem_cons_of_mem _ hp)) ?_
      rw [children_site hne]
      exact List.mem_map_of_mem hc

/-- Syntax that declares names is not below the array. -/
theorem Outside.of_isBinding (hv : e.Valid root) (hs : Site.Under (Site.root root) s)
    (hk : isBinding s.kind = true) : e.Outside root s := by
  refine ⟨hs, fun p hp hid => ?_⟩
  rcases (Site.mem_above_iff hs p).mp hp with h | ⟨t, ht, rfl, c, hc, hcs⟩
  · simp [Site.root] at h
  · have hquiet := hv.quiet t ht hid c.tree (Site.tree_mem_of_mem_children hc) s.tree hcs.tree_mem
    exact absurd (hk.symm.trans hquiet) (by simp)

theorem Outside.initializer (hv : e.Valid root) {b : BindingId} {binding : Binding} {i : Site}
    (h : (Graph.build e.source root).bindings[b]? = some binding) (hi : binding.init = some i) :
    e.Outside root i := by
  obtain ⟨t, ht, hkind, d, hd, hkd, hvalue⟩ := Graph.initializer_of_binding h hi
  have hbinding : isBinding t.kind = true := by rcases hkind with hk | hk <;> rw [hk] <;> rfl
  have ho := Outside.of_isBinding hv ht hbinding
  have hne : t.id ≠ e.array := ho.ne hv.toFits (by rcases hkind with hk | hk <;> simp [hk])
  have hdo := ho.namedChild hne hd
  exact hdo.field (hdo.ne hv.toFits (by simp [hkd])) hvalue

/-! ### What a name means -/

/-- A name outside of the array means what it meant. -/
theorem resolvedAt?_site (hv : e.Valid root) (hs : e.Outside root s) :
    (Graph.build e.edited (e.tree root)).resolvedAt? (e.site s) =
      (Graph.build e.source root).resolvedAt? s := by
  have hf := hv.toFits
  have hrefs := references_tree hf hv.quiet hv.quiet_entries
  have hout : ∀ r : Reference, r.site = s → r.isOutside e.array = true := by
    intro r hr
    rw [Reference.isOutside, hr]
    simpa using hs.above
  unfold Graph.resolvedAt?
  cases hr : (Graph.build e.source root).referenceAt? s with
  | some r =>
      obtain ⟨hmem, hid⟩ := Graph.mem_of_referenceAt? hr
      have hsite : r.site = s := Site.eq_of_id hv.numbered
        (Graph.site_of_mem_references hmem).1 hs.under hid
      have hmem' : e.relocation.reference r ∈ (Graph.build e.edited (e.tree root)).references.toList := by
        refine (List.mem_filter.mp (hrefs ▸ List.mem_map_of_mem ?_)).1
        exact List.mem_filter.mpr ⟨hmem, hout r hsite⟩
      have hr' := Graph.referenceAt?_of_mem hv.numbered_tree hv.oneField_tree hmem'
      rw [← hsite]
      show ((Graph.build e.edited (e.tree root)).referenceAt? (e.relocation.reference r).site).bind _ = _
      rw [hr']
      rfl
  | none =>
      cases hr' : (Graph.build e.edited (e.tree root)).referenceAt? (e.site s) with
      | none => rfl
      | some r' =>
          -- A reference there would be one of the unit's, at its new place.
          exfalso
          obtain ⟨hmem, hid⟩ := Graph.mem_of_referenceAt? hr'
          have hsite : r'.site = e.site s := Site.eq_of_id hv.numbered_tree
            (Graph.site_of_mem_references hmem).1 hs.under_site hid
          have hkeep : r'.isOutside (e.number e.array) = true := by
            have heq := isOutside_reference hf ⟨r'.name, s, r'.scope, r'.access, none⟩
            rw [hout _ rfl] at heq
            rw [Reference.isOutside, hsite]
            exact heq
          obtain ⟨r, hr0, rfl⟩ := List.mem_map.mp (hrefs ▸ List.mem_filter.mpr ⟨hmem, hkeep⟩)
          have hid0 : r.site.id = s.id := hf.injective (by rw [← id_site, ← id_site]; exact hid)
          have hsite0 : r.site = s := Site.eq_of_id hv.numbered
            (Graph.site_of_mem_references (List.mem_filter.mp hr0).1).1 hs.under hid0
          have hat := Graph.referenceAt?_of_mem hv.numbered hv.oneField (List.mem_filter.mp hr0).1
          rw [hsite0, hr] at hat
          exact absurd hat (by simp)

theorem chainRoot?_site (hf : e.Fits root) (hs : e.Outside root s) :
    chainRoot? (e.site s) = (chainRoot? s).map e.site ∧
      ∀ x, chainRoot? s = some x → e.Outside root x := by
  induction hn : sizeOf s.tree using Nat.strong_induction_on generalizing s with
  | _ n ih =>
      have hu := hs.unwrap hf
      -- The object of an access is smaller than it.
      have hobject : s.unwrap.kind ≠ .array →
          ((e.site s).unwrap.field? .object).bind chainRoot? =
            ((s.unwrap.field? .object).bind chainRoot?).map e.site ∧
          ∀ x, (s.unwrap.field? .object).bind chainRoot? = some x → e.Outside root x := by
        intro hk
        have hne := hu.ne hf hk
        rw [unwrap_site hf hs, field?_site hne]
        cases hfield : s.unwrap.field? .object with
        | none => exact ⟨rfl, by simp⟩
        | some object =>
            have hlt : sizeOf object.tree < n := hn ▸ Nat.lt_of_lt_of_le
              (Site.sizeOf_lt_of_field? hfield) (Site.sizeOf_unwrap_le s)
            exact ih _ hlt (hu.field hne hfield) rfl
      rw [chainRoot?_eq, chainRoot?_eq, unwrap_site hf hs, kind_site, ← unwrap_site hf hs]
      split
      · rw [unwrap_site hf hs]
        exact ⟨rfl, fun x hx => Option.some.inj hx ▸ hu⟩
      · exact hobject (by simp [*])
      · exact hobject (by simp [*])
      · exact ⟨rfl, by simp⟩

/-! ### Classification -/

/-- The value of a variable stands outside of the array. -/
theorem value?_binding (hv : e.Valid root) {b : BindingId} {binding : Binding}
    (h : (Graph.build e.source root).bindings[b]? = some binding) :
    (e.relocation.binding binding).value? = binding.value?.map e.site ∧
      ∀ init, binding.value? = some init → e.Outside root init := by
  have hinit : (binding.init.map e.site).map (·.unwrap) =
      (binding.init.map (·.unwrap)).map e.site ∧
      ∀ init, binding.init.map (·.unwrap) = some init → e.Outside root init := by
    cases hi : binding.init with
    | none => exact ⟨rfl, nofun⟩
    | some i =>
        have ho := Outside.initializer hv h hi
        refine ⟨congrArg some (unwrap_site hv.toFits ho), fun init hinit => ?_⟩
        rw [← Option.some.inj hinit]
        exact ho.unwrap hv.toFits
  unfold Binding.value?
  show (match binding.kind with
    | .variable _ => (binding.init.map e.site).map Site.unwrap
    | _ => none) = _ ∧ _
  split
  · exact hinit
  · exact ⟨rfl, nofun⟩

section Classify

variable (hv : e.Valid root) (convention : Hook.Convention) (scope : Option ScopeId)

include hv

theorem isRenderScoped_tree (b : BindingId) :
    (Classifier.ofUnit e.edited (e.tree root) convention scope).isRenderScoped b =
      (Classifier.ofUnit e.source root convention scope).isRenderScoped b := by
  have hmirrors := mirrors_build hv.toFits hv.quiet hv.quiet_entries
  unfold Classifier.isRenderScoped
  simp only [Classifier.graph_ofUnit, Classifier.renderScope_ofUnit]
  rw [funext (hmirrors.declaredWithin b)]

theorem aliasOf?_site (hs : e.Outside root s) :
    (Classifier.ofUnit e.edited (e.tree root) convention scope).aliasOf? (e.site s) =
      (Classifier.ofUnit e.source root convention scope).aliasOf? s := by
  obtain ⟨hsite, hout⟩ := chainRoot?_site hv.toFits hs
  unfold Classifier.aliasOf?
  rw [Classifier.graph_ofUnit, Classifier.graph_ofUnit, hsite]
  cases hroot : chainRoot? s with
  | none => simp only [Option.map_none, Option.bind_none]
  | some x => simp only [Option.map_some, Option.bind_some, resolvedAt?_site hv (hout x hroot)]

theorem hasEmptyDependencies_site (hs : e.Outside root s) (hk : s.kind = .call)
    (h : ∀ list, s.field? .arguments = some list →
      ∀ c, list.namedChildren[1]? = some c → c.unwrap.id ≠ e.array) :
    hasEmptyDependencies (e.site s) = hasEmptyDependencies s := by
  have hf := hv.toFits
  have hne := hs.ne hf (by simp [hk])
  unfold hasEmptyDependencies
  rw [field?_site hne]
  cases hlist : s.field? .arguments with
  | none => rfl
  | some list =>
      have hmem := Site.mem_children_of_field? hlist
      have hlistne := hs.child_ne hf (by simp [hk, Kind.holdsArgument]) hmem
      simp only [Option.map_some, namedChildren_site hlistne, List.getElem?_map]
      cases hc : list.namedChildren[1]? with
      | none => rfl
      | some c =>
          have ho := (hs.child hne hmem).namedChild hlistne (List.mem_of_getElem? hc)
          simp only [Option.map_some, Option.any_some, unwrap_site hf ho, kind_site,
            namedChildren_site (h list hlist c hc), List.isEmpty_map]

/-- The callee of a call keeps its name. -/
theorem callee_site (hs : e.Outside root s) (hk : s.kind = .call) :
    ((e.site s).field? .function).bind (·.calleeName? e.edited) =
      (s.field? .function).bind (·.calleeName? e.source) := by
  have hne := hs.ne hv.toFits (by simp [hk])
  rw [field?_site hne]
  cases hcallee : s.field? .function with
  | none => rfl
  | some callee => exact calleeName?_site hv.toFits (hs.field hne hcallee)

/-- A result that rests on the array of a call still does. -/
theorem rests_tree {call : Site} {b : BindingId} (hcall : e.Outside root call)
    (hk : call.kind = .call)
    (h : (Classifier.ofUnit e.source root convention scope).Rests call b) :
    (Classifier.ofUnit e.edited (e.tree root) convention scope).Rests (e.site call) b := by
  have hmirrors := mirrors_build hv.toFits hv.quiet hv.quiet_entries
  obtain ⟨binding, hb, hpattern, hvalue⟩ := h.held
  refine ⟨(isRenderScoped_tree hv convention scope b).trans h.renderScoped,
    ⟨e.relocation.binding binding, ?_, hpattern, ?_⟩, ?_⟩
  · rw [Classifier.graph_ofUnit, hmirrors.bindings, Array.getElem?_map]
    exact congrArg (Option.map e.relocation.binding) hb
  · rw [(value?_binding hv hb).1, hvalue, Option.map_some]
  · obtain ⟨name, hname, hmemo, hsafe⟩ := h.memoizes
    refine ⟨name, ?_, hmemo, ?_⟩
    · rw [Classifier.source_ofUnit, callee_site hv hcall hk]
      exact hname
    · rw [Classifier.safeResult, Classifier.convention_ofUnit] at hsafe ⊢
      exact hsafe

/-- The array is the second argument of no other call. -/
def Owns (e : Edit) (root : Tree) (call : Site) : Prop :=
  ∀ s, e.Outside root s → s.kind = .call → ∀ list, s.field? .arguments = some list →
    ∀ c, list.namedChildren[1]? = some c → c.unwrap.id = e.array → s = call

/-- Whatever does not rest on the array is classified as before. -/
theorem classifyVia_tree {call : Site} (howns : e.Owns root call) {b : BindingId}
    (hb : ¬ (Classifier.ofUnit e.source root convention scope).Rests call b)
    (follow : BindingId → Bool) :
    (Classifier.ofUnit e.edited (e.tree root) convention scope).classifyVia follow b =
      (Classifier.ofUnit e.source root convention scope).classifyVia follow b := by
  have hf := hv.toFits
  have hmirrors := mirrors_build hf hv.quiet hv.quiet_entries
  unfold Classifier.classifyVia
  rw [isRenderScoped_tree hv]
  split
  · rfl
  rename_i hscoped
  rw [Classifier.graph_ofUnit, Classifier.graph_ofUnit, hmirrors.bindings, Array.getElem?_map]
  cases hbinding : (Graph.build e.source root).bindings[b]? with
  | none => simp only [Option.map_none, Option.bind_none]
  | some binding =>
      obtain ⟨hsite, hout⟩ := value?_binding hv hbinding
      simp only [Option.map_some, Option.bind_some, hsite]
      cases hvalue : binding.value? with
      | none => simp only [Option.map_none]
      | some init =>
          have ho := hout init hvalue
          have hresult : init.kind = .call →
              (Classifier.ofUnit e.edited (e.tree root) convention scope).resultStability
                (e.site init) binding.pattern =
              (Classifier.ofUnit e.source root convention scope).resultStability init
                binding.pattern := by
            intro hk
            refine Classifier.resultStability_congr ?_ (callee_site hv ho hk) ?_
            · rw [Classifier.convention_ofUnit, Classifier.convention_ofUnit]
            intro name hname hmemo hpattern hsafe
            refine hasEmptyDependencies_site hv ho hk fun list hlist c hc hid => hb ?_
            -- The value is the result of the call the array belongs to.
            have hcall := howns init ho hk list hlist c hc hid
            exact ⟨by simpa using hscoped, ⟨binding, hbinding, hpattern, hcall ▸ hvalue⟩,
              name, hcall ▸ hname, hmemo, hsafe⟩
          have halias := aliasOf?_site hv convention scope ho
          show Classifier.ofValue _ follow (e.relocation.binding binding) (e.site init) =
            Classifier.ofValue _ follow binding init
          unfold Classifier.ofValue
          rw [construction?_site hf ho, isPrimitive_site hf ho, kind_site, halias]
          show (if _ then _ else if binding.pattern.isEmpty && binding.isConst && _ then _ else
            if _ then Classifier.resultStability _ _ binding.pattern else _) = _
          by_cases hk : init.kind = .call
          · rw [hresult hk]
          · simp only [if_neg hk]

/-- Whatever does not rest on the array is classified as before, aliases included. -/
theorem classifyWithin_tree {call : Site} (hcall : e.Outside root call) (hk : call.kind = .call)
    (howns : e.Owns root call) (limit : Nat) : ∀ b : BindingId,
      ¬ (Classifier.ofUnit e.source root convention scope).Rests call b →
      (Classifier.ofUnit e.edited (e.tree root) convention scope).classifyWithin limit b =
        (Classifier.ofUnit e.source root convention scope).classifyWithin limit b := by
  induction limit with
  | zero =>
      intro b hb
      rw [Classifier.classifyWithin_zero, Classifier.classifyWithin_zero,
        classifyVia_tree hv convention scope howns hb]
  | succ limit ih =>
      intro b hb
      have hfollow : ∀ t : BindingId,
          (Classifier.ofUnit e.edited (e.tree root) convention scope).classifyWithin limit t =
              .stable .safeHook ↔
            (Classifier.ofUnit e.source root convention scope).classifyWithin limit t =
              .stable .safeHook := by
        intro t
        by_cases ht : (Classifier.ofUnit e.source root convention scope).Rests call t
        · -- A memoized value is no result of a safe hook, before or after.
          rw [ht.classifyWithin hk,
            (rests_tree hv convention scope hcall hk ht).classifyWithin (kind_site.trans hk)]
          cases hasEmptyDependencies call <;> cases hasEmptyDependencies (e.site call) <;> simp
        · rw [ih t ht]
      rw [Classifier.classifyWithin_succ, Classifier.classifyWithin_succ,
        classifyVia_tree hv convention scope howns hb]
      simp only [hfollow]

end Classify

end HookLint.Syntax.Edit
