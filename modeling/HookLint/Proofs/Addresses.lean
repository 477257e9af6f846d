/-
Where the names of a pattern stand in it.

The parts of a pattern are the elements of an array pattern, the properties of an object
pattern, what a rest or a default is put on.  `Part` lists them, each with the steps that
lead from the value of the pattern to the value of the part, and `Address` follows them
down to any depth.  Beside its parts a pattern holds values that it only evaluates: defaults
and computed keys (`Aside`).

`items` is a pattern taken apart in the order in which it is read.  Its names are exactly
the identifiers that have an address, and its values exactly what stands aside
(`name_mem_items`, `value_mem_items`); reading the pattern from some starting steps declares
the names at these steps followed by their addresses (`events_pattern`).
-/
import HookLint.Proofs.Slices
import HookLint.Proofs.Walk

namespace HookLint.Scope

open HookLint.Syntax

/-- The declaration that an identifier makes when it is reached by the steps. -/
def Binder.declares (binder : Binder) (source : String) (steps : List PatternStep)
    (ident : Site) : Declaration :=
  { name := ident.text source, kind := binder.kind, target := binder.target, ident
    declaration := binder.declaration, init := binder.init, pattern := steps }

namespace Pattern

variable {source : String} {binder : Binder} {s : Site}

/-! ### Keys -/

/-- `k` spells `name` between two quotes, which take a byte each. -/
def Quotes (source : String) (k : Site) (name : String) : Prop :=
  k.kind = .string ∧ ∃ first last, k.text source = first ++ name ++ last ∧
    Text.byteLength first = 1 ∧ Text.byteLength last = 1

/-- The key of a property with a pattern of its own. -/
inductive Key (source : String) (p : Site) : String → Prop
  | computed {k : Site} (hk : p.field? .key = some k) (hkind : k.kind = .computedName) :
      Key source p "[computed]"
  | quoted {k : Site} {name : String} (hk : p.field? .key = some k) (h : Quotes source k name) :
      Key source p name
  | plain {k : Site} (hk : p.field? .key = some k) (hkind : k.kind ≠ .computedName)
      (h : ∀ name, ¬ Quotes source k name) : Key source p (k.text source)
  | missing (hk : p.field? .key = none) : Key source p ""

theorem stringContents?_eq_some_iff {k : Site} {name : String} :
    k.stringContents? source = some name ↔ Quotes source k name := by
  unfold Site.stringContents? Quotes
  by_cases hkind : k.kind = .string
  · rw [if_pos hkind, and_iff_right hkind]
    dsimp only
    constructor
    · intro h
      split at h
      · contradiction
      · obtain ⟨first, last, htext, hfirst, hlen⟩ := Text.slice?_eq_some_iff.mp h
        have htotal := congrArg Text.byteLength htext
        rw [Text.byteLength_append, Text.byteLength_append] at htotal
        exact ⟨first, last, htext, hfirst, by omega⟩
    · intro h
      obtain ⟨first, last, htext, hfirst, hlast⟩ := h
      have htotal := congrArg Text.byteLength htext
      rw [Text.byteLength_append, Text.byteLength_append] at htotal
      rw [if_neg (by omega)]
      exact Text.slice?_eq_some_iff.mpr ⟨first, last, htext, hfirst, by omega⟩
  · simp [hkind]

/-- Every property has one key. -/
theorem key_iff {p : Site} {key : String} : Key source p key ↔ key = patternKey source p := by
  unfold patternKey
  constructor
  · intro h
    cases h with
    | computed hk hkind => simp only [hk, if_pos hkind]
    | quoted hk h =>
        have hcontents := stringContents?_eq_some_iff.mpr h
        simp only [hk, hcontents, Option.getD_some]
        rw [if_neg (by rw [h.1]; decide)]
    | @plain k hk hkind h =>
        have hcontents : k.stringContents? source = none :=
          Option.eq_none_iff_forall_ne_some.mpr fun name hname =>
            h name (stringContents?_eq_some_iff.mp hname)
        simp only [hk, if_neg hkind, hcontents, Option.getD_none]
    | missing hk => simp only [hk]
  · intro h
    subst h
    split
    · rename_i k hk
      by_cases hkind : k.kind = .computedName
      · rw [if_pos hkind]
        exact .computed hk hkind
      · rw [if_neg hkind]
        cases hcontents : k.stringContents? source with
        | some name => exact .quoted hk (stringContents?_eq_some_iff.mp hcontents)
        | none =>
            refine .plain hk hkind fun name hname => ?_
            rw [stringContents?_eq_some_iff.mpr hname] at hcontents
            contradiction
    · exact .missing ‹_›

/-! ### Parts and addresses -/

/-- The sites that declare a name when a pattern is read. -/
def IsName (s : Site) : Prop := s.kind = .identifier ∨ s.kind = .shorthandPattern

/-- `Part source s c added`: the pattern `c` is a part of the pattern `s`, and the steps
`added` lead from the value of `s` to the value of `c`. -/
inductive Part (source : String) (s : Site) : Site → List PatternStep → Prop
  /-- An element stands as far in an array as there are commas before it. -/
  | element {before after : List Site} {c : Site} (hkind : s.kind = .arrayPattern)
      (hsplit : s.children = before ++ c :: after) (hc : c.isProper = true)
      (hcomma : c.kind ≠ .comma) : Part source s c [.index (before.countP (·.kind = .comma))]
  | shorthand {c : Site} (hkind : s.kind = .objectPattern) (hc : c ∈ s.namedChildren)
      (hck : c.kind = .shorthandPattern) : Part source s c [.key (c.text source)]
  | keyed {p c : Site} {key : String} (hkind : s.kind = .objectPattern)
      (hp : p ∈ s.namedChildren) (hpk : p.kind = .pairPattern) (hkey : Key source p key)
      (hc : p.field? .value = some c) : Part source s c [.key key]
  | shorthandDefault {p c : Site} (hkind : s.kind = .objectPattern) (hp : p ∈ s.namedChildren)
      (hpk : p.kind = .objectAssignmentPattern) (hc : p.field? .left = some c)
      (hck : c.kind = .shorthandPattern) : Part source s c [.key (c.text source)]
  | patternDefault {p c : Site} (hkind : s.kind = .objectPattern) (hp : p ∈ s.namedChildren)
      (hpk : p.kind = .objectAssignmentPattern) (hc : p.field? .left = some c)
      (hck : c.kind ≠ .shorthandPattern) : Part source s c []
  | restProperty {c : Site} (hkind : s.kind = .objectPattern) (hc : c ∈ s.namedChildren)
      (hck : c.kind = .restPattern) : Part source s c []
  | rest {c : Site} (hkind : s.kind = .restPattern) (hc : s.firstNamed? = some c) :
      Part source s c [.rest]
  | defaulted {c : Site} (hkind : s.kind = .assignmentPattern) (hc : s.field? .left = some c) :
      Part source s c []
  | parameter {c : Site} (hkind : s.kind = .parameter) (hc : s.field? .pattern = some c) :
      Part source s c []

/-- `x` is the pattern `s` or a part of a part of it, and the steps lead there. -/
inductive Address (source : String) : Site → Site → List PatternStep → Prop
  | here (s : Site) : Address source s s []
  | part {s c x : Site} {added steps : List PatternStep} (h : Part source s c added)
      (hx : Address source c x steps) : Address source s x (added ++ steps)

/-- `v` is a value that the pattern `s` itself evaluates: a default or a computed key. -/
inductive Aside (s : Site) : Site → Prop
  | computedKey {p v : Site} (hkind : s.kind = .objectPattern) (hp : p ∈ s.namedChildren)
      (hpk : p.kind = .pairPattern) (hv : p.field? .key = some v) (hvk : v.kind = .computedName) :
      Aside s v
  | propertyDefault {p v : Site} (hkind : s.kind = .objectPattern) (hp : p ∈ s.namedChildren)
      (hpk : p.kind = .objectAssignmentPattern) (hv : p.field? .right = some v) : Aside s v
  | default {v : Site} (hkind : s.kind = .assignmentPattern) (hv : s.field? .right = some v) :
      Aside s v
  | parameterDefault {v : Site} (hkind : s.kind = .parameter) (hv : s.field? .value = some v) :
      Aside s v

/-! ### One level of a pattern -/

theorem exists_split_cons {P : List Site → Prop} {c d : Site} {ds : List Site} :
    (∃ before after, d :: ds = before ++ c :: after ∧ P before) ↔
      (d = c ∧ P []) ∨ ∃ before after, ds = before ++ c :: after ∧ P (d :: before) := by
  constructor
  · intro h
    obtain ⟨before, after, hsplit, hP⟩ := h
    rcases List.cons_eq_append_iff.mp hsplit with ⟨rfl, heq⟩ | ⟨rest, rfl, hds⟩
    · exact .inl ⟨(List.cons.inj heq).1.symm, hP⟩
    · exact .inr ⟨rest, after, hds, hP⟩
  · intro h
    rcases h with ⟨rfl, hP⟩ | ⟨before, after, rfl, hP⟩
    · exact ⟨[], ds, rfl, hP⟩
    · exact ⟨d :: before, after, rfl, hP⟩

/-- The elements of an array pattern are counted by the commas before them. -/
theorem mem_elements_iff {cs : List Site} {position n : Nat} {c : Site} :
    (n, c) ∈ elements position cs ↔ ∃ before after, cs = before ++ c :: after ∧
      c.isProper = true ∧ c.kind ≠ .comma ∧
        n = position + before.countP (·.kind = .comma) := by
  induction cs generalizing position with
  | nil => simp [elements]
  | cons d ds ih =>
      rw [exists_split_cons]
      by_cases hcomma : d.kind = .comma
      · have hnot : ¬ (d = c ∧ c.isProper = true ∧ c.kind ≠ .comma ∧
            n = position + List.countP (fun x : Site => x.kind = .comma) []) := by
          intro h
          exact h.2.2.1 (h.1 ▸ hcomma)
        rw [elements, if_pos hcomma, ih, or_iff_right hnot]
        simp only [List.countP_cons, hcomma, decide_true, if_true, Nat.add_assoc, Nat.add_comm 1]
      · have hcount (before : List Site) : (d :: before).countP (·.kind = .comma) =
            before.countP (·.kind = .comma) := List.countP_cons_of_neg (by simpa using hcomma)
        simp only [hcount]
        by_cases hproper : d.isProper = true
        · rw [elements, if_neg hcomma, if_pos hproper, List.mem_cons, ih]
          refine or_congr_left ?_
          rw [Prod.mk.injEq]
          constructor
          · intro h
            obtain ⟨rfl, rfl⟩ := h
            exact ⟨rfl, hproper, hcomma, rfl⟩
          · intro h
            exact ⟨h.2.2.2, h.1.symm⟩
        · -- Comments and brackets neither are elements nor count.
          rw [elements, if_neg hcomma, if_neg hproper, ih, or_iff_right]
          intro h
          exact hproper (h.1 ▸ h.2.1)

theorem mem_fieldSteps_iff {role : Role} {f : Field} {step : Step} :
    step ∈ fieldSteps role f s ↔ ∃ c, s.field? f = some c ∧ step = .visit role c := by
  unfold fieldSteps
  cases s.field? f <;> simp

theorem mem_computedKeySteps_iff {f : Field} {step : Step} :
    step ∈ computedKeySteps f s ↔
      ∃ k, s.field? f = some k ∧ k.kind = .computedName ∧ step = .visit .value k := by
  unfold computedKeySteps
  cases s.field? f with
  | none => simp
  | some k => by_cases hk : k.kind = .computedName <;> simp [hk]

/-- What a pattern contributes, told by its parts. -/
inductive Contribution (source : String) (binder : Binder) (s : Site) : Step → Prop
  | name (h : IsName s) :
      Contribution source binder s (.emit (.declare (binder.declares source [] s)))
  | named {c : Site} {added : List PatternStep} (h : Part source s c added) (hc : IsName c) :
      Contribution source binder s (.emit (.declare (binder.declares source added c)))
  | part {c : Site} {added : List PatternStep} (h : Part source s c added) :
      Contribution source binder s (.visit (.pattern binder added) c)
  | aside {v : Site} (h : Aside s v) : Contribution source binder s (.visit .value v)

theorem contribution_property {p : Site} {step : Step} (hkind : s.kind = .objectPattern)
    (hp : p ∈ s.namedChildren) (h : step ∈ expandProperty source binder [] p) :
    Contribution source binder s step := by
  unfold expandProperty at h
  split at h
  · rename_i hpk
    obtain rfl := List.mem_singleton.mp h
    exact .named (.shorthand hkind hp hpk) (.inr hpk)
  · rename_i hpk
    rcases List.mem_append.mp h with h | h
    · obtain ⟨k, hk, hkk, rfl⟩ := mem_computedKeySteps_iff.mp h
      exact .aside (.computedKey hkind hp hpk hk hkk)
    · obtain ⟨c, hc, rfl⟩ := mem_fieldSteps_iff.mp h
      exact .part (.keyed hkind hp hpk (key_iff.mpr rfl) hc)
  · rename_i hpk
    rcases List.mem_append.mp h with h | h
    · split at h
      · rename_i c hc
        split at h
        · rename_i hck
          obtain rfl := List.mem_singleton.mp h
          exact .named (.shorthandDefault hkind hp hpk hc hck) (.inr hck)
        · rename_i hck
          obtain rfl := List.mem_singleton.mp h
          exact .part (.patternDefault hkind hp hpk hc hck)
      · contradiction
    · obtain ⟨v, hv, rfl⟩ := mem_fieldSteps_iff.mp h
      exact .aside (.propertyDefault hkind hp hpk hv)
  · rename_i hpk
    obtain rfl := List.mem_singleton.mp h
    exact .part (.restProperty hkind hp hpk)
  · contradiction

/-- A pattern contributes its name, its parts, and what stands aside. -/
theorem contribution_pattern {step : Step} (h : step ∈ expandPattern source binder [] s) :
    Contribution source binder s step := by
  unfold expandPattern at h
  split at h
  · obtain rfl := List.mem_singleton.mp h
    exact .name (.inl ‹_›)
  · obtain rfl := List.mem_singleton.mp h
    exact .name (.inr ‹_›)
  · obtain ⟨p, hp, h⟩ := List.mem_flatMap.mp h
    exact contribution_property ‹_› hp h
  · obtain ⟨⟨n, c⟩, hc, rfl⟩ := List.mem_map.mp h
    obtain ⟨before, after, hsplit, hproper, hcomma, rfl⟩ := mem_elements_iff.mp hc
    rw [Nat.zero_add]
    exact .part (.element ‹_› hsplit hproper hcomma)
  · rcases List.mem_append.mp h with h | h
    · obtain ⟨c, hc, rfl⟩ := mem_fieldSteps_iff.mp h
      exact .part (.defaulted ‹_› hc)
    · obtain ⟨v, hv, rfl⟩ := mem_fieldSteps_iff.mp h
      exact .aside (.default ‹_› hv)
  · obtain ⟨c, hc, rfl⟩ := List.mem_map.mp h
    exact .part (.rest ‹_› (Option.mem_toList.mp hc))
  · rcases List.mem_append.mp h with h | h
    · obtain ⟨c, hc, rfl⟩ := mem_fieldSteps_iff.mp h
      exact .part (.parameter ‹_› hc)
    · obtain ⟨v, hv, rfl⟩ := mem_fieldSteps_iff.mp h
      exact .aside (.parameterDefault ‹_› hv)
  · contradiction

theorem IsName.mem_expandPattern (h : IsName s) (source : String) (binder : Binder) :
    .emit (.declare (binder.declares source [] s)) ∈ expandPattern source binder [] s := by
  rcases h with h | h <;> simp only [expandPattern, h] <;> exact List.mem_singleton_self _

theorem mem_expandPattern_of_property {p : Site} {step : Step} (hkind : s.kind = .objectPattern)
    (hp : p ∈ s.namedChildren) (h : step ∈ expandProperty source binder [] p) :
    step ∈ expandPattern source binder [] s := by
  simp only [expandPattern, hkind]
  exact List.mem_flatMap.mpr ⟨p, hp, h⟩

/-- Every part is read: on the spot if it is a shorthand name, else as a pattern. -/
theorem Part.mem_expandPattern {c : Site} {added : List PatternStep} (h : Part source s c added)
    (binder : Binder) :
    .visit (.pattern binder added) c ∈ expandPattern source binder [] s ∨
      IsName c ∧ .emit (.declare (binder.declares source added c)) ∈
        expandPattern source binder [] s := by
  cases h with
  | @element before after _ hkind hsplit hc hcomma =>
      left
      simp only [expandPattern, hkind]
      refine List.mem_map.mpr ⟨(_, c), mem_elements_iff.mpr
        ⟨before, after, hsplit, hc, hcomma, (Nat.zero_add _).symm⟩, rfl⟩
  | shorthand hkind hc hck =>
      refine .inr ⟨.inr hck, mem_expandPattern_of_property hkind hc ?_⟩
      simp only [expandProperty, hck]
      exact List.mem_singleton_self _
  | @keyed p _ key hkind hp hpk hkey hc =>
      refine .inl (mem_expandPattern_of_property hkind hp ?_)
      rw [key_iff.mp hkey]
      simp only [expandProperty, hpk]
      exact List.mem_append_right _ (mem_fieldSteps_iff.mpr ⟨c, hc, rfl⟩)
  | shorthandDefault hkind hp hpk hc hck =>
      refine .inr ⟨.inr hck, mem_expandPattern_of_property hkind hp ?_⟩
      simp only [expandProperty, hpk, hc, if_pos hck]
      exact List.mem_append_left _ (List.mem_singleton_self _)
  | patternDefault hkind hp hpk hc hck =>
      refine .inl (mem_expandPattern_of_property hkind hp ?_)
      simp only [expandProperty, hpk, hc, if_neg hck]
      exact List.mem_append_left _ (List.mem_singleton_self _)
  | restProperty hkind hc hck =>
      refine .inl (mem_expandPattern_of_property hkind hc ?_)
      simp only [expandProperty, hck]
      exact List.mem_singleton_self _
  | rest hkind hc =>
      left
      simp only [expandPattern, hkind, hc]
      exact List.mem_singleton_self _
  | defaulted hkind hc =>
      left
      simp only [expandPattern, hkind]
      exact List.mem_append_left _ (mem_fieldSteps_iff.mpr ⟨c, hc, rfl⟩)
  | parameter hkind hc =>
      left
      simp only [expandPattern, hkind]
      exact List.mem_append_left _ (mem_fieldSteps_iff.mpr ⟨c, hc, rfl⟩)

theorem Aside.mem_expandPattern {v : Site} (h : Aside s v) (source : String) (binder : Binder) :
    .visit .value v ∈ expandPattern source binder [] s := by
  cases h with
  | computedKey hkind hp hpk hv hvk =>
      refine mem_expandPattern_of_property hkind hp ?_
      simp only [expandProperty, hpk]
      exact List.mem_append_left _ (mem_computedKeySteps_iff.mpr ⟨v, hv, hvk, rfl⟩)
  | propertyDefault hkind hp hpk hv =>
      refine mem_expandPattern_of_property hkind hp ?_
      simp only [expandProperty, hpk]
      exact List.mem_append_right _ (mem_fieldSteps_iff.mpr ⟨v, hv, rfl⟩)
  | default hkind hv =>
      simp only [expandPattern, hkind]
      exact List.mem_append_right _ (mem_fieldSteps_iff.mpr ⟨v, hv, rfl⟩)
  | parameterDefault hkind hv =>
      simp only [expandPattern, hkind]
      exact List.mem_append_right _ (mem_fieldSteps_iff.mpr ⟨v, hv, rfl⟩)

/-- A contribution, with steps put before those that it names. -/
def under (steps : List PatternStep) : Step → Step
  | .emit (.declare d) => .emit (.declare { d with pattern := steps ++ d.pattern })
  | .visit (.pattern binder added) c => .visit (.pattern binder (steps ++ added)) c
  | step => step

theorem map_under_fieldSteps (steps added : List PatternStep) (f : Field) (s : Site) :
    (fieldSteps (.pattern binder added) f s).map (under steps) =
      fieldSteps (.pattern binder (steps ++ added)) f s := by
  unfold fieldSteps
  cases s.field? f <;> rfl

theorem map_under_values (steps : List PatternStep) (f : Field) (s : Site) :
    (fieldSteps .value f s).map (under steps) = fieldSteps .value f s := by
  unfold fieldSteps
  cases s.field? f <;> rfl

theorem map_under_computedKeySteps (steps : List PatternStep) (f : Field) (s : Site) :
    (computedKeySteps f s).map (under steps) = computedKeySteps f s := by
  unfold computedKeySteps
  cases s.field? f with
  | none => rfl
  | some k => by_cases hk : k.kind = .computedName <;> simp [hk, under]

theorem expandProperty_eq_map (steps : List PatternStep) (p : Site) :
    expandProperty source binder steps p =
      (expandProperty source binder [] p).map (under steps) := by
  unfold expandProperty
  split
  · rfl
  · rw [List.map_append, map_under_computedKeySteps, map_under_fieldSteps, List.nil_append]
  · rw [List.map_append, map_under_values]
    congr 1
    cases p.field? .left with
    | none => rfl
    | some c => by_cases hc : c.kind = .shorthandPattern <;> simp [hc, under, declareSteps]
  · simp [under]
  · rfl

/-- The steps that a pattern is reached by stand before those inside of it. -/
theorem expandPattern_eq_map (steps : List PatternStep) (s : Site) :
    expandPattern source binder steps s =
      (expandPattern source binder [] s).map (under steps) := by
  unfold expandPattern
  split
  · simp [under, declareSteps]
  · simp [under, declareSteps]
  · rw [List.map_flatMap]
    exact List.flatMap_congr fun p _ => expandProperty_eq_map steps p
  · rw [List.map_map]
    rfl
  · rw [List.map_append, map_under_values, map_under_fieldSteps, List.append_nil]
  · rw [List.map_map]
    rfl
  · rw [List.map_append, map_under_values, map_under_fieldSteps, List.append_nil]
  · rfl

/-! ### A pattern taken apart -/

/-- What a pattern is made of in the end: names, reached by steps, and values. -/
inductive Item where
  | name (ident : Site) (steps : List PatternStep)
  | value (site : Site)

/-- The name that an event of a pattern declares. -/
def Item.ofEvent : Event → List Item
  | .declare d => [.name d.ident d.pattern]
  | _ => []

/-- The names and values of a pattern, in the order in which they are read. -/
def items (source : String) (role : Role) (s : Site) : List Item :=
  match role with
  | .pattern binder steps =>
    (expandPattern source binder steps s).attach.flatMap fun
      | ⟨.emit e, _⟩ => Item.ofEvent e
      | ⟨.visit r c, _⟩ => items source r c
  | _ => [.value s]
termination_by sizeOf s.tree
decreasing_by exact expandPattern_within (by assumption)

/-- The items of a contribution. -/
def itemsOf (source : String) : Step → List Item
  | .emit e => Item.ofEvent e
  | .visit role c => items source role c

theorem items_eq (source : String) (binder : Binder) (steps : List PatternStep) (s : Site) :
    items source (.pattern binder steps) s =
      (expandPattern source binder [] s).flatMap fun step => itemsOf source (under steps step) := by
  rw [← List.flatMap_map, ← expandPattern_eq_map, items]
  conv_rhs => rw [← List.attach_map_subtype_val (expandPattern source binder steps s),
    List.flatMap_map]
  congr 1
  funext ⟨step, h⟩
  cases step <;> rfl

/-- What an item of the pattern `s`, reached by `steps`, is in terms of addresses. -/
def Item.Stands (source : String) (steps : List PatternStep) (s : Site) : Item → Prop
  | .name x reached =>
      ∃ address, reached = steps ++ address ∧ Address source s x address ∧ IsName x
  | .value v => ∃ t address, Address source s t address ∧ Aside t v

theorem not_part_of_isName {c : Site} {added : List PatternStep} (hs : IsName s) :
    ¬ Part source s c added := by
  intro h
  rcases hs with hs | hs <;> cases h <;> simp_all

theorem not_aside_of_isName {v : Site} (hs : IsName s) : ¬ Aside s v := by
  intro h
  rcases hs with hs | hs <;> cases h <;> simp_all

/-- A name is all there is to a pattern that is one. -/
theorem Item.Stands.eq_of_isName {steps : List PatternStep} {item : Item}
    (h : item.Stands source steps s) (hs : IsName s) : item = .name s steps := by
  cases item with
  | name x reached =>
      obtain ⟨address, rfl, haddress, -⟩ := h
      cases haddress with
      | here => rw [List.append_nil]
      | part hpart _ => exact absurd hpart (not_part_of_isName hs)
  | value v =>
      obtain ⟨t, address, haddress, haside⟩ := h
      cases haddress with
      | here => exact absurd haside (not_aside_of_isName hs)
      | part hpart _ => exact absurd hpart (not_part_of_isName hs)

/-- An item is the name itself, stands aside, or is an item of a part. -/
theorem Item.stands_iff {steps : List PatternStep} {item : Item} :
    item.Stands source steps s ↔ (IsName s ∧ item = .name s steps) ∨
      (∃ v, Aside s v ∧ item = .value v) ∨
      ∃ c added, Part source s c added ∧ item.Stands source (steps ++ added) c := by
  constructor
  · intro h
    cases item with
    | name x reached =>
        obtain ⟨address, rfl, haddress, hx⟩ := h
        cases haddress with
        | here => exact .inl ⟨hx, by rw [List.append_nil]⟩
        | @part _ c _ added rest hpart haddress =>
            exact .inr (.inr ⟨c, added, hpart, rest, (List.append_assoc ..).symm, haddress, hx⟩)
    | value v =>
        obtain ⟨t, address, haddress, haside⟩ := h
        cases haddress with
        | here => exact .inr (.inl ⟨v, haside, rfl⟩)
        | @part _ c _ added rest hpart haddress =>
            exact .inr (.inr ⟨c, added, hpart, t, rest, haddress, haside⟩)
  · intro h
    rcases h with ⟨hs, rfl⟩ | ⟨v, hv, rfl⟩ | ⟨c, added, hpart, h⟩
    · exact ⟨[], (List.append_nil steps).symm, .here s, hs⟩
    · exact ⟨s, [], .here s, hv⟩
    · cases item with
      | name x reached =>
          obtain ⟨address, rfl, haddress, hx⟩ := h
          exact ⟨added ++ address, List.append_assoc .., .part hpart haddress, hx⟩
      | value v =>
          obtain ⟨t, address, haddress, haside⟩ := h
          exact ⟨t, added ++ address, .part hpart haddress, haside⟩

theorem mem_items_of_size (source : String) (binder : Binder) : ∀ (n : Nat) (s : Site),
    sizeOf s.tree = n → ∀ (steps : List PatternStep) (item : Item),
      item ∈ items source (.pattern binder steps) s ↔ item.Stands source steps s := by
  intro n
  induction n using Nat.strong_induction_on with
  | _ n ih =>
      intro s hn steps item
      have hbelow {added : List PatternStep} {c : Site}
          (hc : Step.visit (.pattern binder added) c ∈ expandPattern source binder [] s) :=
        ih _ (hn ▸ expandPattern_within hc) c rfl
      rw [items_eq, List.mem_flatMap, Item.stands_iff]
      constructor
      · intro h
        obtain ⟨step, hstep, hitem⟩ := h
        cases contribution_pattern hstep with
        | name hs =>
            obtain rfl := List.mem_singleton.mp hitem
            exact .inl ⟨hs, by simp [Binder.declares]⟩
        | @named c added hpart hc =>
            obtain rfl := List.mem_singleton.mp hitem
            exact .inr (.inr ⟨c, added, hpart, Item.stands_iff.mpr (.inl ⟨hc, rfl⟩)⟩)
        | @part c added hpart =>
            exact .inr (.inr ⟨c, added, hpart, (hbelow hstep _ _).mp hitem⟩)
        | @aside v hv =>
            refine .inr (.inl ⟨v, hv, ?_⟩)
            simpa [under, itemsOf, items] using hitem
      · intro h
        rcases h with ⟨hs, rfl⟩ | ⟨v, hv, rfl⟩ | ⟨c, added, hpart, h⟩
        · refine ⟨_, hs.mem_expandPattern source binder, ?_⟩
          simp [under, itemsOf, Item.ofEvent, Binder.declares]
        · exact ⟨_, hv.mem_expandPattern source binder, by simp [under, itemsOf, items]⟩
        · rcases hpart.mem_expandPattern binder with hstep | ⟨hc, hstep⟩
          · exact ⟨_, hstep, (hbelow hstep _ _).mpr h⟩
          · -- A shorthand name is declared on the spot, and is the only item of its part.
            rw [h.eq_of_isName hc]
            exact ⟨_, hstep, List.mem_singleton_self _⟩

/-- The names of a pattern are its identifiers, each reached by its address. -/
theorem name_mem_items {steps reached : List PatternStep} {x : Site} :
    .name x reached ∈ items source (.pattern binder steps) s ↔
      ∃ address, reached = steps ++ address ∧ Address source s x address ∧ IsName x :=
  mem_items_of_size source binder _ s rfl steps _

/-- The values of a pattern are the defaults and computed keys inside of it. -/
theorem value_mem_items {steps : List PatternStep} {v : Site} :
    .value v ∈ items source (.pattern binder steps) s ↔
      ∃ t address, Address source s t address ∧ Aside t v :=
  mem_items_of_size source binder _ s rfl steps _

/-- What an item contributes to a reading of the tree. -/
def Item.events (source : String) (binder : Binder) : Item → List Event
  | .name x reached => [.declare (binder.declares source reached x)]
  | .value v => Scope.events source .value v

theorem events_pattern_of_size (source : String) (binder : Binder) : ∀ (n : Nat) (s : Site),
    sizeOf s.tree = n → ∀ steps : List PatternStep,
      events source (.pattern binder steps) s =
        (items source (.pattern binder steps) s).flatMap (Item.events source binder) := by
  intro n
  induction n using Nat.strong_induction_on with
  | _ n ih =>
      intro s hn steps
      rw [events_eq, items_eq, List.flatMap_assoc]
      show (expandPattern source binder steps s).flatMap (Step.events source) = _
      rw [expandPattern_eq_map, List.flatMap_map]
      refine List.flatMap_congr fun step hstep => ?_
      cases contribution_pattern hstep with
      | name => rfl
      | named => rfl
      | part => exact ih _ (hn ▸ expandPattern_within hstep) _ rfl _
      | aside => simp [under, itemsOf, items, Step.events, Item.events]

/-- Reading a pattern declares its names and reads its values, in their order. -/
theorem events_pattern (source : String) (binder : Binder) (steps : List PatternStep) (s : Site) :
    events source (.pattern binder steps) s =
      (items source (.pattern binder steps) s).flatMap (Item.events source binder) :=
  events_pattern_of_size source binder _ s rfl steps

end Pattern

end HookLint.Scope
