/-
Reading an edited tree for names.

Outside of the array everything that is read stays as it is (`keeps`), so a site
contributes what it contributed before, at the new places (`expand_site`).  Entries
that open no region and declare nothing only refer to names, so the events of the two
trees agree but for the occurrences below the array (`events_site`, `unitEvents_tree`).
-/
import HookLint.Proofs.Edit.Sites

namespace HookLint.Scope

open HookLint.Syntax

/-! ### Syntax that only refers to names -/

/-- The event is no occurrence of a name below the node with a number. -/
def Event.isOutside (n : Nat) : Event → Bool
  | .refer _ x _ => x.above.all (·.id != n)
  | _ => true

/-- Syntax without regions and declarations is read for the names it refers to. -/
theorem refer_of_mem_events {source : String} {role : Role} {s : Site} {ev : Event}
    (hev : ev ∈ events source role s) (hr : role.isPattern = false)
    (hquiet : ∀ t ∈ s.tree.subtrees, isBinding t.kind = false) :
    ∃ name x access, ev = .refer name x access ∧ Site.Under s x := by
  induction role, s using expand_induction source with
  | step role s ih =>
      rw [events_eq] at hev
      obtain ⟨step, hstep, hev⟩ := List.mem_flatMap.mp hev
      have hrefers := refers_expand (hquiet _ s.tree.self_mem_subtrees) hr step hstep
      have hleads := expand_leads hstep
      cases step with
      | emit ev' =>
          rw [Step.events, List.mem_singleton] at hev
          subst hev
          cases hleads with
          | refer access hx hk => exact ⟨_, _, access, rfl, hx⟩
          | _ => exact hrefers.elim
      | visit r c =>
          obtain ⟨d, hd, hdc⟩ := hleads.under
          have hc : Site.Under s c := (Site.Under.of_child hd).trans hdc
          obtain ⟨name, x, access, rfl, hx⟩ :=
            ih r c hstep hev hrefers fun t ht => hquiet t (hc.mem_subtrees ht)
          exact ⟨name, x, access, rfl, hc.trans hx⟩

end HookLint.Scope

namespace HookLint.Syntax.Edit

open HookLint.Scope

variable (e : Edit)

/-! ### What is read, at its new place -/

/-- Where the sites outside of the array go. -/
def relocation : Relocation := ⟨e.site, e.number, fun _ => id_site⟩

variable {e} {root : Tree} {s c : Site}

theorem elements_map (position : Nat) (cs : List Site) :
    elements position (cs.map e.site) = (elements position cs).map (Prod.map id e.site) := by
  induction cs generalizing position with
  | nil => rfl
  | cons c cs ih =>
      simp only [List.map_cons, elements, kind_site, isProper_site, ih]
      split
      · rfl
      · split <;> rfl

/-- Outside of the array everything that is read stays as it is. -/
theorem keeps (hf : e.Fits root) :
    e.relocation.Keeps e.source e.edited fun s => e.Outside root s ∧ s.id ≠ e.array where
  injective := hf.injective
  kind _ := kind_site
  child hs hk hc := ⟨hs.1.child hs.2 hc, hs.1.child_ne hf hk hc⟩
  namedChildren hs := namedChildren_site hs.2
  field? hs := field?_site hs.2
  firstNamed? hs _ := firstNamed?_site hs.2
  elements hs _ := by
    show elements 0 (e.site _).children = _
    rw [children_site hs.2, elements_map]
    rfl
  castOperand? hs := castOperand?_site hf hs.1
  text hc hspelled := by
    rcases hc with hc | ⟨s, hs, hc⟩
    · exact text_site hf hc.1 hspelled
    · exact text_site hf (hs.1.child hs.2 hc) hspelled

/-- Outside of the array a site contributes what it contributed. -/
theorem expand_site (hf : e.Fits root) (hs : e.Outside root s) (hne : s.id ≠ e.array) (r : Role) :
    expand e.edited (e.relocation.role r) (e.site s) =
      (expand e.source r s).map e.relocation.step :=
  (keeps hf).expand_site ⟨hs, hne⟩ r

/-! ### Events -/

theorem isOutside_event (hf : e.Fits root) (ev : Event) :
    (e.relocation.event ev).isOutside (e.number e.array) = ev.isOutside e.array := by
  cases ev with
  | refer name x access =>
      show (x.above.map e.tree).all _ = x.above.all _
      rw [List.all_map]
      congr 1
      funext t
      have hid : (e.tree t).id = e.number t.id := (congrArg Label.id (e.label_tree t) :)
      simp [hid, bne, hf.injective.eq_iff]
  | _ => rfl

/-- A dependency argument declares nothing, whatever stands around it. -/
theorem not_isPattern_of_holdsArgument {source : String} {role r : Role}
    (hk : s.kind.holdsArgument = true) (h : .visit r c ∈ expand source role s) :
    r.isPattern = false := by
  refine (not_isPattern_of_visit ?_ (fun b steps => ?_) h).2
  · revert hk
    cases s.kind <;> simp [Kind.holdsArgument, isBinding]
  · revert hk
    unfold expandPattern
    cases s.kind <;> simp [Kind.holdsArgument]

/-- What a site outside leads to is outside. -/
theorem Outside.visit (hf : e.Fits root) (hs : e.Outside root s) (hne : s.id ≠ e.array)
    {role r : Role} (h : .visit r c ∈ expand e.source role s) : e.Outside root c := by
  cases expand_leads h with
  | child _ hc => exact hs.child hne hc
  | @grandchild _ d _ hd hc hover =>
      refine (hs.child hne hd).child ?_ hc
      rcases hover with hpattern | hpassed
      · refine hs.child_ne hf ?_ hd
        rw [← Bool.not_eq_true]
        intro hk
        rw [not_isPattern_of_holdsArgument hk h] at hpattern
        contradiction
      · refine (hs.child hne hd).ne hf fun hk => ?_
        rw [hk] at hpassed
        contradiction

/-- No node below the array opens a region or declares a name. -/
def QuietBelow (n : Nat) (root : Tree) : Prop :=
  ∀ s, Site.Under (Site.root root) s → s.id = n →
    ∀ c ∈ s.tree.children, ∀ t ∈ c.subtrees, isBinding t.kind = false

/-- Whatever is read of the array is a reference below it. -/
theorem filter_events_array (source : String) (hk : s.kind = .array)
    (hquiet : ∀ c ∈ s.tree.children, ∀ t ∈ c.subtrees, isBinding t.kind = false) (role : Role) :
    (events source role s).filter (·.isOutside s.id) = [] := by
  rw [List.filter_eq_nil_iff]
  intro ev hev
  rw [events_eq] at hev
  obtain ⟨step, hstep, hev⟩ := List.mem_flatMap.mp hev
  have hexpand : expand source role s = childSteps s ∨ expand source role s = [] := by
    cases role <;>
      simp [expand, expandValue, expandTarget, expandPattern, expandElementName,
        expandElementObject, hk]
  rcases hexpand with heq | heq
  · rw [heq] at hstep
    obtain ⟨c, hc, rfl⟩ := List.mem_map.mp hstep
    have hmem := Site.mem_children_of_mem_namedChildren hc
    obtain ⟨name, x, access, rfl, hx⟩ :=
      refer_of_mem_events hev rfl (hquiet c.tree (Site.tree_mem_of_mem_children hmem))
    have habove : s.tree ∈ x.above := by
      refine (Site.mem_above_iff hx _).mpr (Or.inl ?_)
      rw [Site.above_of_mem_children hmem]
      exact List.mem_cons_self
    simp only [Event.isOutside, List.all_eq_true, not_forall]
    exact ⟨s.tree, habove, by simp⟩
  · rw [heq] at hstep
    contradiction

/-- Outside of the array a tree is read as before. -/
theorem events_site (hf : e.Fits root) (hold : QuietBelow e.array root)
    (hnew : ∀ c ∈ e.entries, ∀ t ∈ c.subtrees, isBinding t.kind = false) (r : Role)
    (hs : e.Outside root s) :
    (events e.edited (e.relocation.role r) (e.site s)).filter (·.isOutside (e.number e.array)) =
      ((events e.source r s).filter (·.isOutside e.array)).map e.relocation.event := by
  induction r, s using expand_induction e.source with
  | step r s ih =>
      by_cases hne : s.id = e.array
      · have hk := hf.isArray s hs.under hne
        have hold' := filter_events_array e.source hk (hold s hs.under hne) r
        have hnew' := filter_events_array e.edited (s := e.site s) (by rw [kind_site, hk])
          (by rw [site, children_tree_array e hne]; exact hnew) (e.relocation.role r)
        rw [id_site, hne] at hnew'
        rw [hne] at hold'
        rw [hold', hnew']
        rfl
      · rw [events_eq, events_eq, expand_site hf hs hne, List.flatMap_map, List.filter_flatMap,
          List.filter_flatMap, List.map_flatMap]
        refine List.flatMap_congr fun step hstep => ?_
        cases step with
        | emit ev =>
            show [e.relocation.event ev].filter _ = ([ev].filter _).map e.relocation.event
            rw [List.filter_singleton, List.filter_singleton, isOutside_event hf]
            cases ev.isOutside e.array <;> rfl
        | visit r' c => exact ih r' c hstep (hs.visit hf hne hstep)

/-- The events of the edited unit are those of the unit, but for the occurrences in the array. -/
theorem unitEvents_tree (hf : e.Fits root) (hold : QuietBelow e.array root)
    (hnew : ∀ c ∈ e.entries, ∀ t ∈ c.subtrees, isBinding t.kind = false) :
    (unitEvents e.edited (e.tree root)).filter (·.isOutside (e.number e.array)) =
      ((unitEvents e.source root).filter (·.isOutside e.array)).map e.relocation.event := by
  have hroot : e.Outside root (Site.root root) := ⟨.self _, fun p hp => by contradiction⟩
  have hne : (Site.root root).id ≠ e.array := by
    intro h
    obtain ⟨p, hp, -⟩ := hf.isArgument _ hroot.under h
    contradiction
  show List.filter _ (.enter .module (e.site (Site.root root)) ::
    ((e.site (Site.root root)).namedChildren.flatMap (events e.edited .value) ++ [.leave])) = _
  unfold unitEvents
  rw [namedChildren_site hne, List.filter_cons_of_pos rfl, List.filter_cons_of_pos rfl,
    List.filter_append, List.filter_append, List.map_cons, List.map_append, List.flatMap_map,
    List.filter_flatMap, List.filter_flatMap, List.map_flatMap]
  congr 2
  exact List.flatMap_congr fun c hc =>
    events_site hf hold hnew .value (hroot.namedChild hne hc)

end HookLint.Syntax.Edit
