/-
Every node is read once.

Where no node fills two fields of its parent, what a site contributes is paid for by
the nodes it has: `loads_expand_le` adds up, for one number, the nodes with that
number under everything a site leads to or refers to, and the region it opens, and
finds no more of them than there are at the site.  In a numbered tree there is one,
so all its nodes are referred to or open a region at most once (`loads_events_le`).
-/
import HookLint.Proofs.Walk

namespace HookLint.Scope

open HookLint.Syntax

/-! ### What contributions weigh -/

/-- How many nodes with number `i` an event takes up. -/
def Event.load (i : Nat) : Event → Nat
  | .enter _ s => if s.id = i then 1 else 0
  | .leave => 0
  | .declare _ => 0
  | .refer _ s _ => s.weight i

/-- How many nodes with number `i` a contribution takes up. -/
def Step.load (i : Nat) : Step → Nat
  | .emit e => e.load i
  | .visit _ c => c.weight i

/-- How many nodes with number `i` some contributions take up together. -/
def loads (i : Nat) (steps : List Step) : Nat := (steps.map (Step.load i)).sum

/-- How many nodes with number `i` some sites have together. -/
def weights (i : Nat) (sites : List Site) : Nat := (sites.map (Site.weight i)).sum

section Loads

variable {i : Nat}

@[simp] theorem loads_nil : loads i [] = 0 := rfl

@[simp] theorem loads_cons (x : Step) (xs : List Step) : loads i (x :: xs) = x.load i + loads i xs := by
  simp [loads]

@[simp] theorem loads_append (as bs : List Step) : loads i (as ++ bs) = loads i as + loads i bs := by
  simp [loads]

@[simp] theorem weights_nil : weights i [] = 0 := rfl

@[simp] theorem weights_cons (s : Site) (ss : List Site) :
    weights i (s :: ss) = s.weight i + weights i ss := by
  simp [weights]

theorem loads_visits (role : Role) (sites : List Site) :
    loads i (sites.map (Step.visit role)) = weights i sites := by
  simp only [loads, weights, List.map_map]
  rfl

theorem loads_region (kind : ScopeKind) (s : Site) (steps : List Step) :
    loads i (region kind s steps) = (if s.id = i then 1 else 0) + loads i steps := by
  simp only [region, loads_cons, loads_append, loads_nil, Step.load, Event.load]
  omega

theorem weights_filter_le (p : Site → Bool) (sites : List Site) :
    weights i (sites.filter p) ≤ weights i sites := by
  induction sites with
  | nil => exact Nat.le_refl _
  | cons s ss ih =>
      rw [List.filter_cons]
      split <;> simp only [weights_cons] <;> omega

/-- A filter and a site it leaves out. -/
theorem weights_filter_add_le {p : Site → Bool} {sites : List Site} {s : Site} (hs : s ∈ sites)
    (hp : p s = false) : weights i (sites.filter p) + s.weight i ≤ weights i sites := by
  induction sites with
  | nil => contradiction
  | cons t ts ih =>
      rw [List.filter_cons, weights_cons]
      rcases List.mem_cons.mp hs with rfl | hs
      · have := weights_filter_le (i := i) p ts
        rw [if_neg (by simp [hp])]
        omega
      · have := ih hs
        split
        · rw [weights_cons]
          omega
        · omega

theorem loads_flatMap_le {f : Site → List Step} {sites : List Site}
    (h : ∀ s ∈ sites, loads i (f s) ≤ s.weight i) : loads i (sites.flatMap f) ≤ weights i sites := by
  induction sites with
  | nil => exact Nat.le_refl _
  | cons s ss ih =>
      have h1 := h s List.mem_cons_self
      have h2 := ih fun t ht => h t (List.mem_cons_of_mem _ ht)
      rw [List.flatMap_cons, loads_append, weights_cons]
      omega

theorem weight_eq_add_weights (s : Site) :
    s.weight i = (if s.id = i then 1 else 0) + weights i s.children := Site.weight_eq i s

theorem weights_namedChildren_le (s : Site) : weights i s.namedChildren ≤ weights i s.children :=
  weights_filter_le _ _

theorem weight_le_of_under_child {s c d : Site} (hd : d ∈ s.children) (h : Site.Under d c) :
    c.weight i ≤ weights i s.children :=
  Nat.le_trans (h.weight_le i) (List.le_sum_of_mem (List.mem_map.mpr ⟨d, hd, rfl⟩))

/-! ### Fields -/

/-- The weight of the site that fills a field. -/
def fieldLoad (i : Nat) (s : Site) (f : Field) : Nat := ((s.field? f).map (Site.weight i)).getD 0

theorem fieldLoad_of_some {s c : Site} {f : Field} (h : s.field? f = some c) :
    fieldLoad i s f = c.weight i := by
  rw [fieldLoad, h]
  rfl

/-- A child that fills one field at most is paid for once. -/
theorem sum_choice_le {c : Site} (hc : c.label.fields.length ≤ 1) (g : Field → Nat) :
    ∀ fs : List Field, fs.Nodup →
      (fs.map fun f => if c.label.fields.contains f then c.weight i else g f).sum ≤
        c.weight i + (fs.map g).sum := by
  intro fs
  induction fs with
  | nil => intro _; exact Nat.zero_le _
  | cons f fs ih =>
      intro hnodup
      obtain ⟨hf, hfs⟩ := List.nodup_cons.mp hnodup
      rw [List.map_cons, List.map_cons, List.sum_cons, List.sum_cons]
      by_cases hcf : c.label.fields.contains f = true
      · -- No later field is filled by the same child.
        have hrest : ∀ g' ∈ fs, c.label.fields.contains g' = false := by
          intro g' hg'
          by_contra hne
          have hmem : g' ∈ c.label.fields := by simpa using hne
          have hmemf : f ∈ c.label.fields := by simpa using hcf
          have heq : g' = f := by
            match hfields : c.label.fields with
            | [] => rw [hfields] at hmem; contradiction
            | [x] =>
                rw [hfields, List.mem_singleton] at hmem hmemf
                rw [hmem, hmemf]
            | x :: y :: rest => rw [hfields] at hc; simp at hc
          exact hf (heq ▸ hg')
        have hmap : (fs.map fun f => if c.label.fields.contains f then c.weight i else g f) =
            fs.map g := by
          refine List.map_congr_left fun g' hg' => ?_
          rw [hrest g' hg']
          rfl
        rw [if_pos hcf, hmap]
        omega
      · rw [if_neg hcf]
        have := ih hfs
        omega

/-- Different fields are filled by different children. -/
theorem sum_fieldLoad_le {s : Site} (hone : s.tree.OneField) (fs : List Field) (hfs : fs.Nodup) :
    (fs.map (fieldLoad i s)).sum ≤ weights i s.children := by
  have hchild : ∀ c ∈ s.children, c.label.fields.length ≤ 1 := by
    intro c hc
    exact hone c.tree (Site.Under.of_child hc).tree_mem
  have key : ∀ cs : List Site, (∀ c ∈ cs, c.label.fields.length ≤ 1) →
      (fs.map fun f => ((cs.find? (·.label.fields.contains f)).map (Site.weight i)).getD 0).sum ≤
        weights i cs := by
    intro cs
    induction cs with
    | nil => intro _; simp
    | cons c cs ih =>
        intro hcs
        have hle := sum_choice_le (i := i) (hcs c List.mem_cons_self)
          (fun f => ((cs.find? (·.label.fields.contains f)).map (Site.weight i)).getD 0) fs hfs
        have hrec := ih fun d hd => hcs d (List.mem_cons_of_mem _ hd)
        have hfind : (fs.map fun f =>
            (((c :: cs).find? (·.label.fields.contains f)).map (Site.weight i)).getD 0) =
            fs.map fun f => if c.label.fields.contains f then c.weight i
              else ((cs.find? (·.label.fields.contains f)).map (Site.weight i)).getD 0 := by
          refine List.map_congr_left fun f _ => ?_
          rw [List.find?_cons]
          by_cases hcf : c.label.fields.contains f = true
          · rw [hcf]; rfl
          · rw [Bool.not_eq_true] at hcf
            rw [hcf]
            rfl
        rw [hfind, weights_cons]
        omega
  exact key s.children hchild

theorem fieldLoad_le {s : Site} (f : Field) : fieldLoad i s f ≤ weights i s.children := by
  unfold fieldLoad
  cases h : s.field? f with
  | none => exact Nat.zero_le _
  | some c => exact weight_le_of_under_child (Site.mem_children_of_field? h) (.self c)

theorem fieldLoad_add_le {s : Site} (hone : s.tree.OneField) (f g : Field) (h : f ≠ g) :
    fieldLoad i s f + fieldLoad i s g ≤ weights i s.children := by
  simpa using sum_fieldLoad_le (i := i) hone [f, g] (by simp [h])

theorem loads_fieldSteps (role : Role) (f : Field) (s : Site) :
    loads i (fieldSteps role f s) = fieldLoad i s f := by
  unfold fieldSteps
  split
  · rw [fieldLoad_of_some ‹_›]
    simp [Step.load]
  · simp [fieldLoad, *]

theorem loads_computedKeySteps_le (f : Field) (s : Site) :
    loads i (computedKeySteps f s) ≤ fieldLoad i s f := by
  unfold computedKeySteps
  split
  · rename_i key hkey
    rw [fieldLoad_of_some hkey]
    split
    · simp [Step.load]
    · simp
  · simp

/-! ### The contributions of a site -/

variable {source : String}

theorem loads_declareSteps {binder : Binder} {steps : List PatternStep} {ident : Site} :
    loads i (declareSteps source binder steps ident) = 0 := rfl

theorem loads_referSteps (access : Access) (ident : Site) :
    loads i (referSteps source access ident) = ident.weight i := by
  simp [referSteps, Step.load, Event.load]

theorem loads_nameSteps {kind : BindingKind} {s : Site} : loads i (nameSteps source kind s) = 0 := by
  unfold nameSteps
  split <;> rfl

theorem loads_childSteps_le (s : Site) : loads i (childSteps s) ≤ weights i s.children := by
  rw [childSteps, loads_visits]
  exact weights_namedChildren_le s

/-- The name and the other children of a node. -/
theorem fieldLoad_add_memberSteps_le (s : Site) :
    fieldLoad i s .name + loads i (memberSteps s) ≤ weights i s.children := by
  rw [memberSteps, loads_visits]
  cases h : s.field? .name with
  | none =>
      have := weights_namedChildren_le (i := i) s
      simp only [fieldLoad, h, Option.map_none, Option.getD_none, Option.all_none, List.filter_true]
      omega
  | some n =>
      rw [fieldLoad_of_some h, Site.namedChildren, List.filter_filter]
      have := weights_filter_add_le (i := i)
        (p := fun c => (some n).all (·.id != c.id) && c.isProper)
        (Site.mem_children_of_field? h) (by simp)
      omega

theorem loads_firstNamed_le (role : Role) (s : Site) :
    loads i (s.firstNamed?.toList.map (Step.visit role)) ≤ weights i s.children := by
  rw [loads_visits]
  cases h : s.firstNamed? with
  | none => simp
  | some c =>
      have := weight_le_of_under_child (i := i) (Site.mem_children_of_firstNamed? h) (.self c)
      simpa using this

theorem loads_wrapped_le (role : Role) (s : Site) :
    loads i (s.wrapped?.toList.map (Step.visit role)) ≤ weights i s.children := by
  rw [loads_visits]
  cases h : s.wrapped? with
  | none => simp
  | some c =>
      obtain ⟨d, hd, hdc⟩ := (adjoins_wrapped h).below
      simpa using weight_le_of_under_child hd hdc

theorem loads_functionBody_le (source : String) (s : Site) :
    loads i (functionBody source s) ≤
      fieldLoad i s .parameter + fieldLoad i s .parameters + fieldLoad i s .body := by
  have hname : loads i (if s.kind = .functionExpression then nameSteps source .functionName s else [])
      = 0 := by
    split
    · exact loads_nameSteps
    · rfl
  simp only [functionBody, loads_append, hname, loads_fieldSteps, Nat.zero_add]
  refine Nat.add_le_add (Nat.add_le_add_left ?_ _) ?_
  · split
    · rename_i ps hps
      rw [loads_visits, fieldLoad_of_some hps, weight_eq_add_weights]
      have := weights_namedChildren_le (i := i) ps
      omega
    · simp
  · split
    · rename_i body hbody
      rw [fieldLoad_of_some hbody]
      split
      · have := loads_childSteps_le (i := i) body
        rw [weight_eq_add_weights]
        omega
      · simp [Step.load]
    · simp

theorem loads_functionSteps_le (source : String) {s : Site} (hone : s.tree.OneField) :
    fieldLoad i s .name + loads i (functionSteps source s) ≤ s.weight i := by
  have hbody := loads_functionBody_le (i := i) source s
  have hfields := sum_fieldLoad_le (i := i) hone [.name, .parameter, .parameters, .body]
    (by decide)
  simp only [List.map_cons, List.map_nil, List.sum_cons, List.sum_nil] at hfields
  rw [functionSteps_eq, loads_region, weight_eq_add_weights]
  omega

theorem OneField.child {s c : Site} (h : s.tree.OneField) (hc : c ∈ s.children) :
    c.tree.OneField :=
  fun u hu => h u (Tree.mem_subtrees_of_child (Site.tree_mem_of_mem_children hc) hu)

theorem OneField.under {s c : Site} (h : s.tree.OneField) (hc : Site.Under s c) :
    c.tree.OneField := by
  induction hc with
  | self => exact h
  | child _ hc ih => exact OneField.child ih hc

theorem loads_declarationSteps_le (source : String) {s : Site} (hone : s.tree.OneField) :
    loads i (declarationSteps source s) ≤ weights i s.children := by
  refine Nat.le_trans (loads_flatMap_le fun d hd => ?_)
    (Nat.le_trans (weights_filter_le _ _) (weights_namedChildren_le s))
  have hchild := Site.mem_children_of_mem_namedChildren (List.mem_filter.mp hd).1
  have := fieldLoad_add_le (i := i) (OneField.child hone hchild) .name .value (by decide)
  rw [loads_append, loads_fieldSteps, loads_fieldSteps, weight_eq_add_weights]
  omega

theorem loads_forInSteps_le {s : Site} (hone : s.tree.OneField) :
    loads i (forInSteps source s) ≤ s.weight i := by
  have hfields := sum_fieldLoad_le (i := i) hone [.left, .right, .body] (by decide)
  simp only [List.map_cons, List.map_nil, List.sum_cons, List.sum_nil] at hfields
  have hleft : ∀ steps, (∃ role, steps = fieldSteps role .left s) →
      loads i steps = fieldLoad i s .left := by
    rintro _ ⟨role, rfl⟩
    exact loads_fieldSteps role .left s
  rw [forInSteps, loads_region, weight_eq_add_weights, loads_append, loads_append, loads_fieldSteps,
    loads_fieldSteps, hleft _ (by split <;> exact ⟨_, rfl⟩)]
  omega

theorem loads_importSteps (s : Site) : loads i (importSteps source s) = 0 := by
  unfold importSteps
  generalize importedIdents s = idents
  induction idents with
  | nil => rfl
  | cons x xs ih => rw [List.flatMap_cons, loads_append, ih, loads_declareSteps]

theorem loads_expandValue_le {s : Site} (hone : s.tree.OneField) :
    loads i (expandValue source s) ≤ s.weight i := by
  have hw := weight_eq_add_weights (i := i) s
  have hchildren := loads_childSteps_le (i := i) s
  have hmembers := fieldLoad_add_memberSteps_le (i := i) s
  have hfunction := loads_functionSteps_le (i := i) source hone
  have hfield := fun f => fieldLoad_le (i := i) (s := s) f
  have hwrapped := loads_wrapped_le (i := i) .value s
  unfold expandValue
  split
  · exact Nat.zero_le _
  · exact Nat.zero_le _
  · rw [loads_referSteps]
  · rw [loads_referSteps]
  · rw [loads_append, loads_nameSteps]
    omega
  · omega
  · omega
  · have := loads_computedKeySteps_le (i := i) .name s
    rw [loads_append]
    omega
  · rw [loads_append, loads_nameSteps]
    omega
  · split
    · rw [loads_region, loads_append, loads_nameSteps]
      omega
    · omega
  · have := loads_declarationSteps_le (i := i) source hone
    omega
  · have := loads_declarationSteps_le (i := i) source hone
    omega
  · rw [loads_importSteps]
    exact Nat.zero_le _
  · split
    · exact Nat.zero_le _
    · omega
  · have := hfield .name
    rw [loads_fieldSteps]
    omega
  · rw [loads_region]
    omega
  · rw [loads_region]
    omega
  · rw [loads_region]
    omega
  · exact loads_forInSteps_le hone
  · have := fieldLoad_add_le (i := i) hone .parameter .body (by decide)
    rw [loads_region, loads_append, loads_fieldSteps, loads_fieldSteps]
    omega
  · have := fieldLoad_add_le (i := i) hone .left .right (by decide)
    rw [loads_append, loads_fieldSteps, loads_fieldSteps]
    omega
  · have := fieldLoad_add_le (i := i) hone .left .right (by decide)
    rw [loads_append, loads_fieldSteps, loads_fieldSteps]
    omega
  · have := hfield .argument
    rw [loads_fieldSteps]
    omega
  · omega
  · omega
  · split
    · rename_i operand hop
      obtain ⟨d, hd, hdc⟩ := (adjoins_castOperand hop).below
      have := weight_le_of_under_child (i := i) hd hdc
      simp only [loads_cons, loads_nil, Step.load]
      omega
    · omega
  · rw [loads_append, loads_fieldSteps]
    omega
  · rw [loads_append, loads_fieldSteps]
    omega
  · exact Nat.zero_le _
  · exact Nat.zero_le _
  · rw [loads_nameSteps]
    exact Nat.zero_le _
  · have := hfield .body
    rw [loads_fieldSteps]
    omega
  · omega

theorem loads_expandProperty_le {binder : Binder} {steps : List PatternStep} {s : Site}
    (hone : s.tree.OneField) : loads i (expandProperty source binder steps s) ≤ s.weight i := by
  have hw := weight_eq_add_weights (i := i) s
  unfold expandProperty
  split
  · rw [loads_declareSteps]
    exact Nat.zero_le _
  · have h1 := loads_computedKeySteps_le (i := i) .key s
    have h2 := fieldLoad_add_le (i := i) hone .key .value (by decide)
    rw [loads_append, loads_fieldSteps]
    omega
  · have hfields := fieldLoad_add_le (i := i) hone .left .right (by decide)
    rw [loads_append, loads_fieldSteps]
    split
    · rename_i left hleft
      rw [fieldLoad_of_some hleft] at hfields
      split
      · rw [loads_declareSteps]
        omega
      · simp only [loads_cons, loads_nil, Step.load]
        omega
    · rw [loads_nil]
      omega
  · simp [Step.load]
  · exact Nat.zero_le _

theorem loads_expandTargetProperty_le {s : Site} (hone : s.tree.OneField) :
    loads i (expandTargetProperty source s) ≤ s.weight i := by
  have hw := weight_eq_add_weights (i := i) s
  unfold expandTargetProperty
  split
  · rw [loads_referSteps]
  · have h1 := loads_computedKeySteps_le (i := i) .key s
    have h2 := fieldLoad_add_le (i := i) hone .key .value (by decide)
    rw [loads_append, loads_fieldSteps]
    omega
  · have hfields := fieldLoad_add_le (i := i) hone .left .right (by decide)
    rw [loads_append, loads_fieldSteps]
    split
    · rename_i left hleft
      rw [fieldLoad_of_some hleft] at hfields
      split
      · rw [loads_referSteps]
        omega
      · simp only [loads_cons, loads_nil, Step.load]
        omega
    · rw [loads_nil]
      omega
  · simp [Step.load]
  · exact Nat.zero_le _

theorem loads_elements_le (role : Nat → Role) (sites : List Site) : ∀ position : Nat,
    loads i ((elements position sites).map fun (n, c) => .visit (role n) c) ≤ weights i sites := by
  induction sites with
  | nil => intro _; exact Nat.le_refl _
  | cons c cs ih =>
      intro position
      have h1 := ih position
      have h2 := ih (position + 1)
      unfold elements
      split
      · rw [weights_cons]
        omega
      · split
        · rw [List.map_cons, loads_cons, weights_cons]
          show c.weight i + _ ≤ _
          omega
        · rw [weights_cons]
          omega

theorem loads_expandPattern_le {binder : Binder} {steps : List PatternStep} {s : Site}
    (hone : s.tree.OneField) : loads i (expandPattern source binder steps s) ≤ s.weight i := by
  have hw := weight_eq_add_weights (i := i) s
  unfold expandPattern
  split
  · rw [loads_declareSteps]
    exact Nat.zero_le _
  · rw [loads_declareSteps]
    exact Nat.zero_le _
  · have hflat : loads i (s.namedChildren.flatMap (expandProperty source binder steps)) ≤
        weights i s.namedChildren :=
      loads_flatMap_le fun c hc => loads_expandProperty_le
        (OneField.child hone (Site.mem_children_of_mem_namedChildren hc))
    have := weights_namedChildren_le (i := i) s
    omega
  · refine Nat.le_trans (loads_elements_le (fun n => .pattern binder (steps ++ [.index n]))
      s.children 0) ?_
    omega
  · have := fieldLoad_add_le (i := i) hone .left .right (by decide)
    rw [loads_append, loads_fieldSteps, loads_fieldSteps]
    omega
  · have := loads_firstNamed_le (i := i) (.pattern binder (steps ++ [.rest])) s
    omega
  · have := fieldLoad_add_le (i := i) hone .pattern .value (by decide)
    rw [loads_append, loads_fieldSteps, loads_fieldSteps]
    omega
  · exact Nat.zero_le _

theorem loads_expandTarget_le {access : Access} {s : Site} (hone : s.tree.OneField) :
    loads i (expandTarget source access s) ≤ s.weight i := by
  have hw := weight_eq_add_weights (i := i) s
  have hwrapped := loads_wrapped_le (i := i) (.target access) s
  have hnamed := weights_namedChildren_le (i := i) s
  unfold expandTarget
  split
  · rw [loads_referSteps]
  · omega
  · omega
  · omega
  · have hflat : loads i (s.namedChildren.flatMap (expandTargetProperty source)) ≤
        weights i s.namedChildren :=
      loads_flatMap_le fun c hc => loads_expandTargetProperty_le
        (OneField.child hone (Site.mem_children_of_mem_namedChildren hc))
    omega
  · rw [loads_visits]
    omega
  · have := fieldLoad_add_le (i := i) hone .left .right (by decide)
    rw [loads_append, loads_fieldSteps, loads_fieldSteps]
    omega
  · have := loads_firstNamed_le (i := i) (.target .write) s
    omega
  · exact loads_expandValue_le hone

theorem loads_elementName_le {s : Site} : loads i (expandElementName source s) ≤ s.weight i ∧
    loads i (expandElementObject source s) ≤ s.weight i := by
  have hw := weight_eq_add_weights (i := i) s
  have hfirst := loads_firstNamed_le (i := i) .elementObject s
  constructor
  · unfold expandElementName
    split
    · split
      · rw [loads_referSteps]
      · exact Nat.zero_le _
    · omega
    · omega
    · exact Nat.zero_le _
  · unfold expandElementObject
    split
    · rw [loads_referSteps]
    · omega
    · omega
    · exact Nat.zero_le _

/-- Whatever a site is read as, it takes up no more nodes than it has. -/
theorem loads_expand_le (role : Role) {s : Site} (hone : s.tree.OneField) :
    loads i (expand source role s) ≤ s.weight i := by
  cases role with
  | value => exact loads_expandValue_le hone
  | pattern => exact loads_expandPattern_le hone
  | target => exact loads_expandTarget_le hone
  | elementName => exact loads_elementName_le.1
  | elementObject => exact loads_elementName_le.2

/-! ### The events of a site -/

/-- How many nodes with number `i` some events take up together. -/
def eventLoads (i : Nat) (es : List Event) : Nat := (es.map (Event.load i)).sum

theorem eventLoads_flatMap_le {steps : List Step}
    (h : ∀ r c, Step.visit r c ∈ steps → eventLoads i (events source r c) ≤ c.weight i) :
    eventLoads i (steps.flatMap (Step.events source)) ≤ loads i steps := by
  induction steps with
  | nil => exact Nat.le_refl _
  | cons x xs ih =>
      have hrest := ih fun r c hmem => h r c (List.mem_cons_of_mem _ hmem)
      have hx : eventLoads i (x.events source) ≤ x.load i := by
        cases x with
        | emit e => simp [eventLoads, Step.events, Step.load]
        | visit r c => exact h r c List.mem_cons_self
      unfold eventLoads at hx hrest ⊢
      rw [List.flatMap_cons, List.map_append, List.sum_append, loads_cons]
      omega

theorem eventLoads_events_le (source : String) (role : Role) {s : Site} (hone : s.tree.OneField) :
    eventLoads i (events source role s) ≤ s.weight i := by
  induction role, s using expand_induction source with
  | step role s ih =>
      rw [events_eq]
      refine Nat.le_trans (eventLoads_flatMap_le fun r c hmem => ?_) (loads_expand_le role hone)
      obtain ⟨d, hd, hdc⟩ := (expand_leads hmem).under
      exact ih r c hmem (OneField.under hone ((Site.Under.of_child hd).trans hdc))

/-- The contributions of a whole unit: a region around what its children contribute. -/
def unitSteps (root : Tree) : List Step := region .module (Site.root root) (childSteps (Site.root root))

theorem unitEvents_eq (source : String) (root : Tree) :
    unitEvents source root = (unitSteps root).flatMap (Step.events source) := by
  simp only [unitEvents, unitSteps, region, List.flatMap_cons, List.flatMap_append, childSteps,
    List.flatMap_map]
  rfl

/-- A unit refers to each of its nodes, or opens a region there, at most once. -/
theorem eventLoads_unitEvents_le {root : Tree} (hone : root.OneField) :
    eventLoads i (unitEvents source root) ≤ root.weight i := by
  have hsite : (Site.root root).weight i = root.weight i := rfl
  rw [unitEvents_eq, ← hsite]
  refine Nat.le_trans (eventLoads_flatMap_le fun r c hmem => ?_) ?_
  · have hc : c ∈ (Site.root root).namedChildren ∧ Role.value = r := by
      simpa [unitSteps, region, childSteps] using hmem
    exact eventLoads_events_le source r
      (OneField.child hone (Site.mem_children_of_mem_namedChildren hc.1))
  · have := loads_childSteps_le (i := i) (Site.root root)
    rw [unitSteps, loads_region, weight_eq_add_weights]
    omega

end Loads

/-! ### The nodes events name -/

/-- The site whose region an event opens. -/
def Event.opens? : Event → Option Site
  | .enter _ s => some s
  | _ => none

/-- The site an event refers to. -/
def Event.refers? : Event → Option Site
  | .refer _ s _ => some s
  | _ => none

theorem Event.load_of_opens? {e : Event} {s : Site} (h : e.opens? = some s) : 1 ≤ e.load s.id := by
  cases e with
  | enter _ t =>
      injection h with h
      subst h
      simp [Event.load]
  | _ => contradiction

theorem Event.load_of_refers? {e : Event} {s : Site} (h : e.refers? = some s) :
    1 ≤ e.load s.id := by
  cases e with
  | refer _ t _ =>
      injection h with h
      subst h
      exact (Site.Under.self t).one_le_weight
  | _ => contradiction

theorem count_sites_le {f : Event → Option Site} (hf : ∀ e s, f e = some s → 1 ≤ e.load s.id)
    (i : Nat) (es : List Event) : ((es.filterMap f).map (·.id)).count i ≤ eventLoads i es := by
  induction es with
  | nil => exact Nat.le_refl _
  | cons e es ih =>
      have hsum : eventLoads i (e :: es) = e.load i + eventLoads i es := by simp [eventLoads]
      rw [hsum]
      cases he : f e with
      | none =>
          rw [List.filterMap_cons_none he]
          omega
      | some s =>
          rw [List.filterMap_cons_some he, List.map_cons, List.count_cons]
          split
          · rename_i heq
            have := hf e s he
            rw [beq_iff_eq.mp heq] at this
            omega
          · omega

/-- No two events of a unit name the same node. -/
theorem nodup_sites {f : Event → Option Site} (hf : ∀ e s, f e = some s → 1 ≤ e.load s.id)
    {root : Tree} (hnum : root.Numbered) (hone : root.OneField) (source : String) :
    (((unitEvents source root).filterMap f).map (·.id)).Nodup := by
  refine List.nodup_iff_count_le_one.mpr fun i => ?_
  exact Nat.le_trans (count_sites_le hf i _)
    (Nat.le_trans (eventLoads_unitEvents_le hone) (hnum.weight_le i))

end HookLint.Scope
