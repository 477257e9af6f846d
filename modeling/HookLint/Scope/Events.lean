/-
Following the outline down a tree.

Every site that `expand` leads to lies strictly below the one it started from, so
reading a tree for names ends: `expand_within`.
-/
import HookLint.Scope.Outline

namespace HookLint.Scope

open HookLint.Syntax

/-! ### Contributions stay below their site -/

theorem Step.Within.of_le {s t : Site} {step : Step} (h : step.Within s)
    (hle : sizeOf s.tree ≤ sizeOf t.tree) : step.Within t := by
  cases step with
  | emit => trivial
  | visit => exact Nat.lt_of_lt_of_le h hle

theorem declareSteps_within {source : String} {binder : Binder} {steps : List PatternStep}
    {ident s : Site} {step : Step} (h : step ∈ declareSteps source binder steps ident) :
    step.Within s := by
  rw [List.mem_singleton.mp h]; trivial

theorem referSteps_within {source : String} {access : Access} {ident s : Site} {step : Step}
    (h : step ∈ referSteps source access ident) : step.Within s := by
  rw [List.mem_singleton.mp h]; trivial

theorem fieldSteps_within {role : Role} {f : Field} {s : Site} {step : Step}
    (h : step ∈ fieldSteps role f s) : step.Within s := by
  unfold fieldSteps at h
  split at h
  · rw [List.mem_singleton.mp h]
    exact Site.sizeOf_lt_of_field? ‹_›
  · contradiction

theorem visit_namedChildren_within {role : Role} {s : Site} {step : Step}
    (h : step ∈ s.namedChildren.map (Step.visit role)) : step.Within s := by
  obtain ⟨c, hc, rfl⟩ := List.mem_map.mp h
  exact Site.sizeOf_lt_of_mem_namedChildren hc

theorem childSteps_within {s : Site} {step : Step} (h : step ∈ childSteps s) : step.Within s :=
  visit_namedChildren_within h

theorem memberSteps_within {s : Site} {step : Step} (h : step ∈ memberSteps s) :
    step.Within s := by
  obtain ⟨c, hc, rfl⟩ := List.mem_map.mp h
  exact Site.sizeOf_lt_of_mem_namedChildren (List.mem_filter.mp hc).1

theorem region_within {kind : ScopeKind} {s t : Site} {steps : List Step} {step : Step}
    (h : step ∈ region kind s steps) (hsteps : ∀ x ∈ steps, x.Within t) : step.Within t := by
  simp only [region, List.mem_cons, List.mem_append, List.not_mem_nil, or_false] at h
  rcases h with rfl | h | rfl
  · trivial
  · exact hsteps _ h
  · trivial

theorem nameSteps_within {source : String} {kind : BindingKind} {s t : Site} {step : Step}
    (h : step ∈ nameSteps source kind s) : step.Within t := by
  unfold nameSteps at h
  split at h
  · exact declareSteps_within h
  · contradiction

theorem computedKeySteps_within {f : Field} {s : Site} {step : Step}
    (h : step ∈ computedKeySteps f s) : step.Within s := by
  unfold computedKeySteps at h
  split at h
  · split at h
    · rw [List.mem_singleton.mp h]
      exact Site.sizeOf_lt_of_field? ‹_›
    · contradiction
  · contradiction

theorem visit_firstNamed_within {role : Role} {s : Site} {step : Step}
    (h : step ∈ s.firstNamed?.toList.map (Step.visit role)) : step.Within s := by
  obtain ⟨c, hc, rfl⟩ := List.mem_map.mp h
  exact Site.sizeOf_lt_of_firstNamed? (Option.mem_toList.mp hc)

theorem visit_wrapped_within {role : Role} {s : Site} {step : Step}
    (h : step ∈ s.wrapped?.toList.map (Step.visit role)) : step.Within s := by
  obtain ⟨c, hc, rfl⟩ := List.mem_map.mp h
  exact Site.sizeOf_lt_of_wrapped? (Option.mem_toList.mp hc)

theorem append_within {s : Site} {as bs : List Step} {step : Step} (h : step ∈ as ++ bs)
    (ha : step ∈ as → step.Within s) (hb : step ∈ bs → step.Within s) : step.Within s :=
  (List.mem_append.mp h).elim ha hb

theorem functionSteps_within {source : String} {s : Site} {step : Step}
    (h : step ∈ functionSteps source s) : step.Within s := by
  refine region_within h fun x hx => ?_
  refine append_within hx (fun hx => append_within hx (fun hx => append_within hx ?_ ?_) ?_) ?_
  · intro hx
    split at hx
    · exact nameSteps_within hx
    · contradiction
  · exact fieldSteps_within
  · intro hx
    split at hx
    · rename_i ps hps
      exact (visit_namedChildren_within hx).of_le (Nat.le_of_lt (Site.sizeOf_lt_of_field? hps))
    · contradiction
  · intro hx
    split at hx
    · rename_i body hbody
      split at hx
      · exact (childSteps_within hx).of_le (Nat.le_of_lt (Site.sizeOf_lt_of_field? hbody))
      · rw [List.mem_singleton.mp hx]
        exact Site.sizeOf_lt_of_field? hbody
    · contradiction

theorem declarationSteps_within {source : String} {s : Site} {step : Step}
    (h : step ∈ declarationSteps source s) : step.Within s := by
  obtain ⟨d, hd, h⟩ := List.mem_flatMap.mp h
  have hlt := Site.sizeOf_lt_of_mem_namedChildren (List.mem_filter.mp hd).1
  refine Step.Within.of_le (s := d) ?_ (Nat.le_of_lt hlt)
  exact append_within h fieldSteps_within fieldSteps_within

theorem forInSteps_within {source : String} {s : Site} {step : Step}
    (h : step ∈ forInSteps source s) : step.Within s := by
  refine region_within h fun x hx => ?_
  refine append_within hx (fun hx => append_within hx ?_ fieldSteps_within) fieldSteps_within
  intro hx
  split at hx <;> exact fieldSteps_within hx

theorem importSteps_within {source : String} {s : Site} {step : Step}
    (h : step ∈ importSteps source s) : step.Within s := by
  obtain ⟨_, _, h⟩ := List.mem_flatMap.mp h
  exact declareSteps_within h

theorem expandValue_within {source : String} {s : Site} {step : Step}
    (h : step ∈ expandValue source s) : step.Within s := by
  unfold expandValue at h
  split at h
  · contradiction
  · contradiction
  · exact referSteps_within h
  · exact referSteps_within h
  · exact append_within h nameSteps_within functionSteps_within
  · exact functionSteps_within h
  · exact functionSteps_within h
  · exact append_within h computedKeySteps_within functionSteps_within
  · exact append_within h nameSteps_within memberSteps_within
  · split at h
    · exact region_within h fun x hx => append_within hx nameSteps_within memberSteps_within
    · exact memberSteps_within h
  · exact declarationSteps_within h
  · exact declarationSteps_within h
  · exact importSteps_within h
  · split at h
    · contradiction
    · exact childSteps_within h
  · exact fieldSteps_within h
  · exact region_within h fun x hx => childSteps_within hx
  · exact region_within h fun x hx => childSteps_within hx
  · exact region_within h fun x hx => childSteps_within hx
  · exact forInSteps_within h
  · exact region_within h fun x hx => append_within hx fieldSteps_within fieldSteps_within
  · exact append_within h fieldSteps_within fieldSteps_within
  · exact append_within h fieldSteps_within fieldSteps_within
  · exact fieldSteps_within h
  · exact visit_wrapped_within h
  · exact visit_wrapped_within h
  · split at h
    · obtain rfl := List.mem_singleton.mp h
      exact Site.sizeOf_lt_of_mem_flattened (Site.mem_flattened_of_castOperand? ‹_›)
    · exact childSteps_within h
  · exact append_within h fieldSteps_within memberSteps_within
  · exact append_within h fieldSteps_within memberSteps_within
  · contradiction
  · contradiction
  · exact nameSteps_within h
  · exact fieldSteps_within h
  · exact childSteps_within h

theorem expandProperty_within {source : String} {binder : Binder} {steps : List PatternStep}
    {s c : Site} {step : Step} (hc : c ∈ s.namedChildren)
    (h : step ∈ expandProperty source binder steps c) : step.Within s := by
  have hlt := Site.sizeOf_lt_of_mem_namedChildren hc
  unfold expandProperty at h
  split at h
  · exact declareSteps_within h
  · exact (append_within h computedKeySteps_within fieldSteps_within).of_le (Nat.le_of_lt hlt)
  · refine Step.Within.of_le (s := c) (append_within h (fun h => ?_) fieldSteps_within)
      (Nat.le_of_lt hlt)
    split at h
    · split at h
      · exact declareSteps_within h
      · rw [List.mem_singleton.mp h]
        exact Site.sizeOf_lt_of_field? ‹_›
    · contradiction
  · rw [List.mem_singleton.mp h]
    exact hlt
  · contradiction

theorem mem_of_mem_elements {cs : List Site} {position n : Nat} {c : Site}
    (h : (n, c) ∈ elements position cs) : c ∈ cs := by
  induction cs generalizing position with
  | nil => contradiction
  | cons d ds ih =>
    unfold elements at h
    split at h
    · exact List.mem_cons_of_mem _ (ih h)
    · split at h
      · rcases List.mem_cons.mp h with heq | h
        · injection heq with _ hd
          rw [hd]
          exact List.mem_cons_self
        · exact List.mem_cons_of_mem _ (ih h)
      · exact List.mem_cons_of_mem _ (ih h)

theorem expandPattern_within {source : String} {binder : Binder} {steps : List PatternStep}
    {s : Site} {step : Step} (h : step ∈ expandPattern source binder steps s) :
    step.Within s := by
  unfold expandPattern at h
  split at h
  · exact declareSteps_within h
  · exact declareSteps_within h
  · obtain ⟨c, hc, h⟩ := List.mem_flatMap.mp h
    exact expandProperty_within hc h
  · obtain ⟨⟨n, c⟩, hc, rfl⟩ := List.mem_map.mp h
    exact Site.sizeOf_lt_of_mem_children (mem_of_mem_elements hc)
  · exact append_within h fieldSteps_within fieldSteps_within
  · exact visit_firstNamed_within h
  · exact append_within h fieldSteps_within fieldSteps_within
  · contradiction

theorem expandTargetProperty_within {source : String} {s c : Site} {step : Step}
    (hc : c ∈ s.namedChildren) (h : step ∈ expandTargetProperty source c) : step.Within s := by
  have hlt := Site.sizeOf_lt_of_mem_namedChildren hc
  unfold expandTargetProperty at h
  split at h
  · exact referSteps_within h
  · exact (append_within h computedKeySteps_within fieldSteps_within).of_le (Nat.le_of_lt hlt)
  · refine Step.Within.of_le (s := c) (append_within h (fun h => ?_) fieldSteps_within)
      (Nat.le_of_lt hlt)
    split at h
    · split at h
      · exact referSteps_within h
      · rw [List.mem_singleton.mp h]
        exact Site.sizeOf_lt_of_field? ‹_›
    · contradiction
  · rw [List.mem_singleton.mp h]
    exact hlt
  · contradiction

theorem expandTarget_within {source : String} {access : Access} {s : Site} {step : Step}
    (h : step ∈ expandTarget source access s) : step.Within s := by
  unfold expandTarget at h
  split at h
  · exact referSteps_within h
  · exact visit_wrapped_within h
  · exact visit_wrapped_within h
  · exact visit_wrapped_within h
  · obtain ⟨c, hc, h⟩ := List.mem_flatMap.mp h
    exact expandTargetProperty_within hc h
  · exact visit_namedChildren_within h
  · exact append_within h fieldSteps_within fieldSteps_within
  · exact visit_firstNamed_within h
  · exact expandValue_within h

theorem expandElementName_within {source : String} {s : Site} {step : Step}
    (h : step ∈ expandElementName source s) : step.Within s := by
  unfold expandElementName at h
  split at h
  · split at h
    · exact referSteps_within h
    · contradiction
  · exact visit_firstNamed_within h
  · exact visit_firstNamed_within h
  · contradiction

theorem expandElementObject_within {source : String} {s : Site} {step : Step}
    (h : step ∈ expandElementObject source s) : step.Within s := by
  unfold expandElementObject at h
  split at h
  · exact referSteps_within h
  · exact visit_firstNamed_within h
  · exact visit_firstNamed_within h
  · contradiction

/-- Whatever a site is read as, it leads only to sites below it. -/
theorem expand_within {source : String} {role : Role} {s : Site} {step : Step}
    (h : step ∈ expand source role s) : step.Within s := by
  cases role with
  | value => exact expandValue_within h
  | pattern => exact expandPattern_within h
  | target => exact expandTarget_within h
  | elementName => exact expandElementName_within h
  | elementObject => exact expandElementObject_within h

/-! ### Reading a tree -/

/-- The events of a site read in a role. -/
def events (source : String) (role : Role) (s : Site) : List Event :=
  (expand source role s).attach.flatMap fun
    | ⟨.emit e, _⟩ => [e]
    | ⟨.visit r c, _⟩ => events source r c
termination_by sizeOf s.tree
decreasing_by exact expand_within (by assumption)

/-- The events of a whole source unit: one module region around everything. -/
def unitEvents (source : String) (root : Tree) : List Event :=
  let site := Site.root root
  .enter .module site :: (site.namedChildren.flatMap (events source .value) ++ [.leave])

end HookLint.Scope
