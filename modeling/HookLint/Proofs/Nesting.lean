/-
Scopes and the nodes that opened them.

In a numbered tree a node opens one scope at most and is referred to once at most.
The scopes a reference occurs in are those that were open when it was met, and the
regions open then are those of the tree, so a reference's scope lies within the
scope of a function exactly when its node lies below the function
(`isWithin_iff_isBelow`).

Regions determine the scopes that are open, so a name read inside a function and
declared outside of it means there what it means beside the function
(`lookup?_beside`).
-/
import HookLint.Proofs.Building
import HookLint.Proofs.Visits

namespace HookLint.Scope.Graph

open HookLint.Syntax

variable {source : String} {root : Tree}

/-! ### One scope and one reference for a node -/

theorem filterMap_snd_stages {σ β : Type} {f : σ → Event → σ} {h : Event → Option β} (s : σ)
    (es : List Event) : (stages f s es).filterMap (fun p => h p.2) = es.filterMap h := by
  conv_rhs => rw [← map_snd_stages (f := f) s es, List.filterMap_map]
  rfl

/-- The scopes of a unit are opened one after the other, each inside the one open then. -/
theorem outlines_scopes (source : String) (root : Tree) :
    (build source root).scopes.toList.map ScopeRecord.outline =
      (unitStages source root).filterMap Builder.opened := by
  have hrun : (built source root).graph.scopes.toList.map ScopeRecord.outline = _ :=
    Builder.scopes_run (b := Builder.empty) (unitEvents source root)
  refine (List.ext_getElem? fun i => ?_).trans hrun
  simpa [outline?] using (alike_build source root).outline? i

/-- The scopes of a unit are the regions its reading opens, in order. -/
theorem sites_scopes (source : String) (root : Tree) :
    (build source root).scopes.toList.map (·.site) =
      (unitEvents source root).filterMap Event.opens? := by
  have hsites := congrArg (List.map (·.2.2)) (outlines_scopes source root)
  rw [List.map_map, List.map_filterMap] at hsites
  refine Eq.trans hsites ?_
  rw [← filterMap_snd_stages (f := Builder.step) Builder.empty (unitEvents source root)]
  refine List.filterMap_congr fun p _ => ?_
  obtain ⟨b, e⟩ := p
  cases e <;> rfl

/-- The references of a unit are the occurrences its reading meets, in order. -/
theorem sites_references (source : String) (root : Tree) :
    (build source root).references.toList.map (·.site) =
      (unitEvents source root).filterMap Event.refers? := by
  rw [references_build, List.map_map, List.map_filterMap,
    ← filterMap_snd_stages (f := Builder.step) Builder.empty (unitEvents source root)]
  refine List.filterMap_congr fun p _ => ?_
  obtain ⟨b, e⟩ := p
  cases e <;> rfl

theorem nodup_references (hnum : root.Numbered) (hone : root.OneField) (source : String) :
    ((build source root).references.toList.map (·.site.id)).Nodup := by
  have := nodup_sites (fun _ _ => Event.load_of_refers?) hnum hone source
  rw [← sites_references, List.map_map] at this
  exact this

/-- An entry of a table is found at one place only when no two entries have the same key. -/
theorem index_unique {α : Type} {key : α → Nat} {table : Array α}
    (hnodup : (table.toList.map key).Nodup) {i j : Nat} {a b : α} (hi : table[i]? = some a)
    (hj : table[j]? = some b) (h : key a = key b) : i = j := by
  have hget : ∀ {k : Nat} {c : α}, table[k]? = some c → (table.toList.map key)[k]? = some (key c) := by
    intro k c hk
    rw [List.getElem?_map, Array.getElem?_toList, hk]
    rfl
  have hlt : i < (table.toList.map key).length := (List.getElem?_eq_some_iff.mp (hget hi)).1
  exact (List.getElem?_inj hlt hnodup).mp ((hget hi).trans (h ▸ (hget hj).symm))

/-- A node is referred to once at most. -/
theorem reference_unique (hnum : root.Numbered) (hone : root.OneField) {i j : ReferenceId}
    {r t : Reference} (hi : (build source root).references[i]? = some r)
    (hj : (build source root).references[j]? = some t) (hid : r.site.id = t.site.id) : i = j :=
  index_unique (nodup_references hnum hone source) hi hj hid

/-- A node opens one scope at most. -/
theorem scope_unique (hnum : root.Numbered) (hone : root.OneField) {i j : ScopeId} {s t : Site}
    (hi : (build source root).siteOf? i = some s) (hj : (build source root).siteOf? j = some t)
    (hid : s.id = t.id) : i = j := by
  have hnodup := nodup_sites (fun _ _ => Event.load_of_opens?) hnum hone source
  rw [← sites_scopes, List.map_map] at hnodup
  obtain ⟨scope, hscope, rfl⟩ := siteOf?_eq_some.mp hi
  obtain ⟨scope', hscope', rfl⟩ := siteOf?_eq_some.mp hj
  exact index_unique hnodup hscope hscope' hid

/-! ### Where scopes and references come from -/

theorem mem_traced_of_mem_stages {b : Builder} {e : Event} (h : (b, e) ∈ unitStages source root) :
    (b.regions, e) ∈ traced [] (unitEvents source root) := by
  have hmap := Builder.map_regions_stages Builder.Open.empty (unitEvents source root)
  exact hmap ▸ List.mem_map.mpr ⟨(b, e), h, rfl⟩

/-- A scope was opened by its syntax, inside the scopes it is nested in. -/
theorem exists_stage_of_siteOf? {i : ScopeId} {s : Site}
    (h : (build source root).siteOf? i = some s) :
    ∃ b kind, (b, .enter kind s) ∈ unitStages source root := by
  obtain ⟨scope, hscope, rfl⟩ := siteOf?_eq_some.mp h
  have hmem : scope.site ∈ (build source root).scopes.toList.map (·.site) :=
    List.mem_map.mpr ⟨scope, Array.mem_toList_iff.mpr (Array.mem_of_getElem? hscope), rfl⟩
  rw [sites_scopes, ← filterMap_snd_stages (f := Builder.step) Builder.empty] at hmem
  obtain ⟨⟨b, e⟩, hstage, he⟩ := List.mem_filterMap.mp hmem
  cases e with
  | enter kind t =>
      injection he with he
      exact ⟨b, kind, he ▸ hstage⟩
  | _ => simp [Event.opens?] at he

theorem siteOf?_of_scopeAt? {s : Site} {i : ScopeId} (h : (build source root).scopeAt? s = some i) :
    ∃ t, (build source root).siteOf? i = some t ∧ t.id = s.id := by
  obtain ⟨_, _, hl, _⟩ := List.lookup_eq_some_iff.mp h
  exact ((sound_build source root).scopeNodes s.id i).mp (by rw [hl]; simp)

/-- The scope found for a node was opened by that node. -/
theorem siteOf?_scopeAt? (hnum : root.Numbered) {s : Site} (hs : Site.Under (Site.root root) s)
    {i : ScopeId} (h : (build source root).scopeAt? s = some i) :
    (build source root).siteOf? i = some s := by
  obtain ⟨t, ht, hid⟩ := siteOf?_of_scopeAt? h
  obtain ⟨b, kind, hstage⟩ := exists_stage_of_siteOf? ht
  have hunder := Visit.under_of_enter (mem_traced_of_mem_stages hstage)
  have heq : t = s := Site.eq_of_id hnum hunder hs hid
  exact heq ▸ ht

theorem open_of_mem_unitStages {p : Builder × Event} (h : p ∈ unitStages source root) : p.1.Open :=
  Builder.open_of_mem_stages Builder.Open.empty h

theorem extends_build {p : Builder × Event} (h : p ∈ unitStages source root) :
    p.1.graph.Extends (build source root) := by
  intro i hi
  rw [(alike_build source root).outline?]
  exact Builder.extends_of_mem_stages h i hi

theorem ranked_build (source : String) (root : Tree) : (build source root).Ranked := by
  have hrun := Builder.open_run Builder.Open.empty (unitEvents source root)
  have hopen : Builder.Open ⟨build source root, []⟩ :=
    hrun.of_outline List.nil_suffix (alike_build source root).outline?
  exact hopen.ranked

/-- The builder that has entered the region of a unit. -/
def entered (root : Tree) : Builder := Builder.empty.enter .module (Site.root root)

theorem open_entered (root : Tree) : (entered root).Open := Builder.Open.empty.enter _ _

theorem unitStages_eq (source : String) (root : Tree) :
    unitStages source root = (Builder.empty, .enter .module (Site.root root)) ::
      stages Builder.step (entered root) (Visit.unitBody source root) := rfl

/-- After the first event a region is always open. -/
theorem stack_ne_nil_of_mem_body {p : Builder × Event}
    (h : p ∈ stages Builder.step (entered root) (Visit.unitBody source root)) :
    p.1.stack ≠ [] := by
  have hregions : (entered root).regions = [Site.root root] :=
    Builder.regions_step Builder.Open.empty (.enter .module (Site.root root))
  have hmap := Builder.map_regions_stages (open_entered root) (Visit.unitBody source root)
  rw [hregions] at hmap
  have hroot := Visit.root_mem_of_mem_traced (hmap ▸ List.mem_map_of_mem h)
  intro hnil
  simp [Builder.regions, hnil] at hroot

/-- The unit is entered before anything else. -/
theorem mem_body_of_mem_unitStages {b : Builder} {e : Event} (h : (b, e) ∈ unitStages source root)
    (he : e.opens? = none) :
    (b, e) ∈ stages Builder.step (entered root) (Visit.unitBody source root) := by
  rw [unitStages_eq] at h
  rcases List.mem_cons.mp h with h | h
  · injection h with _ h
    rw [h] at he
    contradiction
  · exact h

theorem stack_ne_nil {b : Builder} {e : Event} (h : (b, e) ∈ unitStages source root)
    (he : e.opens? = none) : b.stack ≠ [] :=
  stack_ne_nil_of_mem_body (mem_body_of_mem_unitStages h he)

/-- A reference or a declaration occurs in the scopes that were open when it was met. -/
theorem ancestors_current {b : Builder} {e : Event} (h : (b, e) ∈ unitStages source root)
    (he : e.opens? = none) : (build source root).ancestors b.current = b.stack := by
  have hopen := open_of_mem_unitStages h
  cases hstack : b.stack with
  | nil => exact absurd hstack (stack_ne_nil h he)
  | cons top below =>
      have hcurrent : b.current = top := by rw [Builder.current, hstack]; rfl
      rw [hcurrent, (extends_build h).ancestors (hopen.lt_size top (hstack ▸ List.mem_cons_self))]
      exact hopen.chain top below (hstack ▸ List.suffix_refl _)

/-- A scope is open exactly when the region of the node that opened it is. -/
theorem mem_stack_iff (hnum : root.Numbered) (hone : root.OneField) {b : Builder} {e : Event}
    (h : (b, e) ∈ unitStages source root) {i : ScopeId} {s : Site}
    (hi : (build source root).siteOf? i = some s) : i ∈ b.stack ↔ s ∈ b.regions := by
  have hopen := open_of_mem_unitStages h
  have hsite : ∀ {j : ScopeId}, j ∈ b.stack → (build source root).siteOf? j = b.graph.siteOf? j :=
    fun hj => (extends_build h).siteOf? (hopen.lt_size _ hj)
  rw [Builder.regions, List.mem_filterMap]
  constructor
  · intro hmem
    exact ⟨i, hmem, (hsite hmem).symm.trans hi⟩
  · rintro ⟨j, hmem, hj⟩
    have hij : i = j := scope_unique hnum hone hi ((hsite hmem).trans hj) rfl
    exact hij ▸ hmem

/-- A reference's scope lies within the scope of a function exactly when its node lies below
the function. -/
theorem isWithin_iff_isBelow (hnum : root.Numbered) (hone : root.OneField) {f : Site}
    (hf : Site.Under (Site.root root) f) (hinline : f.kind.isInlineFunction = true) {scope : ScopeId}
    (hscope : (build source root).scopeAt? f = some scope) {r : Reference}
    (hr : r ∈ (build source root).references.toList) :
    (build source root).isWithin r.scope scope = true ↔ r.site.isBelow f = true := by
  obtain ⟨b, hstage, hcurrent, -⟩ := exists_stage_of_mem_references hr
  have hsite := siteOf?_scopeAt? hnum hf hscope
  obtain ⟨b', kind, hstage'⟩ := exists_stage_of_siteOf? hsite
  rw [isWithin_iff_mem, hcurrent, ancestors_current hstage rfl, mem_stack_iff hnum hone hstage hsite]
  exact mem_regions_iff_below hnum hone hinline (mem_traced_of_mem_stages hstage')
    (mem_traced_of_mem_stages hstage)

/-! ### What is found for a node -/

theorem exists_stage_of_mem_traced {inside : List Site} {e : Event}
    (h : (inside, e) ∈ traced [] (unitEvents source root)) :
    ∃ b, (b, e) ∈ unitStages source root ∧ b.regions = inside := by
  have hmap := Builder.map_regions_stages Builder.Open.empty (unitEvents source root)
  have hmem : (inside, e) ∈ (unitStages source root).map (Prod.map Builder.regions id) := hmap ▸ h
  obtain ⟨⟨b, e'⟩, hstage, heq⟩ := List.mem_map.mp hmem
  injection heq with hregions he
  exact ⟨b, (show e' = e from he) ▸ hstage, hregions⟩

/-- An occurrence that is met is recorded. -/
theorem mem_references_of_stage {b : Builder} {name : String} {x : Site} {access : Access}
    (h : (b, .refer name x access) ∈ unitStages source root) :
    ∃ r ∈ (build source root).references.toList, r.site = x ∧
      r.resolved = (build source root).lookup? b.current name := by
  refine ⟨(built source root).graph.resolved ⟨name, x, b.current, access, none⟩, ?_, rfl, ?_⟩
  · rw [references_build]
    exact List.mem_map.mpr ⟨_, List.mem_filterMap.mpr ⟨_, h, rfl⟩, rfl⟩
  · rw [(alike_build source root).lookup?]
    rfl

/-- The index found for a node is the one listed there, where there is only one. -/
theorem lookup_of_unique {table : List (Nat × Nat)} {node i : Nat} (hmem : (node, i) ∈ table)
    (hunique : ∀ j, (node, j) ∈ table → j = i) : table.lookup node = some i := by
  have hsome : (table.lookup node).isSome = true := by
    rw [List.lookup_isSome_iff]
    exact ⟨_, hmem, beq_self_eq_true _⟩
  obtain ⟨j, hj⟩ := Option.isSome_iff_exists.mp hsome
  obtain ⟨_, _, hl, _⟩ := List.lookup_eq_some_iff.mp hj
  rw [hj, hunique j (by rw [hl]; simp)]

theorem lookup_referenceNodes (hnum : root.Numbered) (hone : root.OneField) {i : ReferenceId}
    {r : Reference} (hi : (build source root).references[i]? = some r) :
    (build source root).referenceNodes.lookup r.site.id = some i := by
  have hlisted := (sound_build source root).referenceNodes r.site.id
  refine lookup_of_unique ((hlisted i).mpr ⟨r, hi, rfl⟩) fun j hj => ?_
  obtain ⟨t, ht, hid⟩ := (hlisted j).mp hj
  exact reference_unique hnum hone ht hi hid

/-- The reference found for a node is the one recorded there. -/
theorem referenceAt?_of_mem (hnum : root.Numbered) (hone : root.OneField) {r : Reference}
    (hr : r ∈ (build source root).references.toList) :
    (build source root).referenceAt? r.site = some r := by
  obtain ⟨i, hi⟩ := List.mem_iff_getElem?.mp hr
  rw [Array.getElem?_toList] at hi
  rw [referenceAt?, lookup_referenceNodes hnum hone hi]
  exact hi

/-- The scope found for a node is the one it opened. -/
theorem scopeAt?_of_siteOf? (hnum : root.Numbered) (hone : root.OneField) {i : ScopeId} {s : Site}
    (hi : (build source root).siteOf? i = some s) : (build source root).scopeAt? s = some i := by
  have hlisted := (sound_build source root).scopeNodes s.id
  refine lookup_of_unique ((hlisted i).mpr ⟨s, hi, rfl⟩) fun j hj => ?_
  obtain ⟨t, ht, hid⟩ := (hlisted j).mp hj
  exact scope_unique hnum hone ht hi hid

/-- The reference found for a node is one of the unit's, at that node. -/
theorem mem_of_referenceAt? {s : Site} {r : Reference}
    (h : (build source root).referenceAt? s = some r) :
    r ∈ (build source root).references.toList ∧ r.site.id = s.id := by
  obtain ⟨k, hk, hr⟩ := Option.bind_eq_some_iff.mp h
  obtain ⟨_, _, hl, _⟩ := List.lookup_eq_some_iff.mp hk
  obtain ⟨t, ht, hid⟩ := ((sound_build source root).referenceNodes s.id k).mp (by rw [hl]; simp)
  rw [hr, Option.some.injEq] at ht
  subst ht
  exact ⟨Array.mem_toList_iff.mpr (Array.mem_of_getElem? hr), hid⟩

/-- A reference stands where it was met, under the name it was met with. -/
theorem site_of_mem_references {r : Reference} (hr : r ∈ (build source root).references.toList) :
    Site.Under (Site.root root) r.site ∧ isNameKind r.site.kind = true ∧
      r.name = r.site.text source := by
  obtain ⟨b, hstage, -, -⟩ := exists_stage_of_mem_references hr
  obtain ⟨v, hv, hrefer⟩ := Visit.arrives_of_refer (mem_traced_of_mem_stages hstage)
  obtain ⟨hunder, hkind⟩ := Visit.refer_under hrefer
  exact ⟨hv.under.trans hunder, hkind, Visit.refer_name hrefer⟩

/-! ### Beside a function -/

/-- The open regions say which scopes are open. -/
theorem stack_eq_of_regions (hnum : root.Numbered) (hone : root.OneField) {p q : Builder × Event}
    (hp : p ∈ unitStages source root) (hq : q ∈ unitStages source root)
    (h : p.1.regions = q.1.regions) : p.1.stack = q.1.stack := by
  have hsites : ∀ {p : Builder × Event}, p ∈ unitStages source root →
      p.1.regions = p.1.stack.filterMap (build source root).siteOf? := by
    intro p hp
    exact (Builder.filterMap_siteOf?_of_extends (extends_build hp)
      (open_of_mem_unitStages hp).lt_size).symm
  have hsome : ∀ {p : Builder × Event}, p ∈ unitStages source root → ∀ i ∈ p.1.stack,
      ∃ s, (build source root).siteOf? i = some s := by
    intro p hp i hi
    have hlt := (open_of_mem_unitStages hp).lt_size i hi
    exact Option.isSome_iff_exists.mp
      (siteOf?_isSome.mpr (Nat.lt_of_lt_of_le hlt (extends_build hp).size_le))
  have hinj : ∀ as bs : List ScopeId, (∀ i ∈ as, ∃ s, (build source root).siteOf? i = some s) →
      (∀ i ∈ bs, ∃ s, (build source root).siteOf? i = some s) →
      as.filterMap (build source root).siteOf? = bs.filterMap (build source root).siteOf? →
      as = bs := by
    intro as
    induction as with
    | nil =>
        intro bs _ hbs heq
        cases bs with
        | nil => rfl
        | cons i is =>
            obtain ⟨s, hs⟩ := hbs i List.mem_cons_self
            rw [List.filterMap_cons_some hs] at heq
            contradiction
    | cons i is ih =>
        intro bs has hbs heq
        obtain ⟨s, hs⟩ := has i List.mem_cons_self
        cases bs with
        | nil =>
            rw [List.filterMap_cons_some hs] at heq
            contradiction
        | cons j js =>
            obtain ⟨t, ht⟩ := hbs j List.mem_cons_self
            rw [List.filterMap_cons_some hs, List.filterMap_cons_some ht] at heq
            injection heq with hst htail
            have hij : i = j := scope_unique hnum hone hs ht (by rw [hst])
            rw [hij, ih js (fun k hk => has k (List.mem_cons_of_mem _ hk))
              (fun k hk => hbs k (List.mem_cons_of_mem _ hk)) htail]
  exact hinj _ _ (hsome hp) (hsome hq) (by rw [← hsites hp, ← hsites hq, h])

/-- A scope is nested in the scopes that were open when it was opened. -/
theorem ancestors_of_enter (hnum : root.Numbered) (hone : root.OneField) {b : Builder}
    {kind : ScopeKind} {f : Site} (h : (b, .enter kind f) ∈ unitStages source root)
    {scope : ScopeId} (hscope : (build source root).siteOf? scope = some f) :
    (build source root).ancestors scope = scope :: b.stack := by
  have hopen := (open_of_mem_unitStages h).enter kind f
  have hext : (b.enter kind f).graph.Extends (build source root) := by
    intro i hi
    rw [(alike_build source root).outline?]
    exact Builder.extends_step_of_mem_stages h i hi
  have hsize : b.graph.scopes.size < (b.enter kind f).graph.scopes.size := by
    rw [show (b.enter kind f).graph.scopes.size = b.graph.scopes.size + 1 from Array.size_push ..]
    exact Nat.lt_succ_self _
  have hsite : (build source root).siteOf? b.graph.scopes.size = some f := by
    rw [hext.siteOf? hsize, siteOf?, Builder.outline?_enter, if_pos rfl]
    rfl
  have heq : scope = b.graph.scopes.size := scope_unique hnum hone hscope hsite rfl
  rw [heq, hext.ancestors hsize]
  exact hopen.chain _ _ (List.suffix_refl _)

/-- A name means what its scope declares, or what it means in the scopes around. -/
theorem lookup?_eq_or {g : Graph} {i p : ScopeId} (h : g.ancestors i = i :: g.ancestors p)
    (name : String) : g.lookup? i name = (g.own? i name).or (g.lookup? p name) := by
  unfold lookup? owner?
  rw [h, List.findSome?_cons]
  cases g.own? i name <;> rfl

/-- A name that means something declared outside of a scope means the same in the scopes
around it. -/
theorem lookup?_beside {g : Graph} (hg : g.Sound) {scope j : ScopeId} {name : String} {b : BindingId}
    (hscope : g.ancestors scope = scope :: g.ancestors j) (hout : g.declaredWithin b scope = false) :
    ∀ i : ScopeId, g.isWithin i scope = true → g.lookup? i name = some b →
      g.lookup? j name = some b := by
  intro i
  induction i using Nat.strong_induction_on with
  | _ i ih =>
      intro hin hlookup
      -- What a scope inside declares is declared inside.
      have hown : ∀ {p : ScopeId}, g.ancestors i = i :: g.ancestors p →
          g.lookup? p name = some b := by
        intro p hp
        rw [lookup?_eq_or hp] at hlookup
        cases hi : g.own? i name with
        | none =>
            rw [hi] at hlookup
            exact hlookup
        | some b' =>
            rw [hi] at hlookup
            injection hlookup with hb
            subst hb
            obtain ⟨binding, hbinding, -, hscope'⟩ := hg.binding_of_own? hi
            rw [declaredWithin, hbinding, Option.any_some, hscope', hin] at hout
            contradiction
      by_cases heq : i = scope
      · exact hown (heq ▸ hscope)
      · have hmem := isWithin_iff_mem.mp hin
        cases hp : g.parent? i with
        | none =>
            rw [ancestors_of_no_parent hp, List.mem_singleton] at hmem
            exact absurd hmem.symm heq
        | some p =>
            have hanc := ancestors_of_parent hp
            rw [hanc] at hmem
            have hmem' := (List.mem_cons.mp hmem).resolve_left fun h => heq h.symm
            exact ih p (lt_of_parent? hp) (isWithin_iff_mem.mpr hmem') (hown hanc)

end HookLint.Scope.Graph
