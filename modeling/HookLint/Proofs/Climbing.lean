/-
Going down an expression and climbing back.

An expression such as `(a.b as T)!.c` is read in two directions.  From the whole one goes
down, out of wrappers and from accesses to their objects, to the name at its stem; that is
how an entry of an array is spelled.  From the name one climbs up again as far as is safe;
that is the path of a read.  `Site.inner?` is one step down, and `taken` lists the accesses
that the climb goes through, so that the path is the name and their keys (`pathAt_eq`).

One step up undoes one step down, with three exceptions: a cast whose operand stands inside
an error node is not above its operand, an access may add nothing, and an access may be
called or assigned.  The last cannot happen on the way, because what surrounds an access
there is the next access (`surround?_of_mem_accesses`).  So a climb from the stem takes the
accesses of the expression from the inside, all of them or the first few (`taken_stem`).

Hence a read of the name an entry starts at covers the entry, and has the same path when
every link can be climbed (`read_matches_entry`).
-/
import HookLint.Proofs.Spelling

namespace HookLint.Syntax

/-- The kinds of node that access a property of an object. -/
def Kind.isAccess : Kind → Bool
  | member | subscript => true
  | _ => false

namespace Site

/-! ### Down -/

/-- What an expression is made from: what a wrapper wraps, the object of an access. -/
def inner? (s : Site) : Option Site :=
  if s.kind.isAccess then s.field? .object else s.wrapped?

theorem sizeOf_lt_of_inner? {s inner : Site} (h : s.inner? = some inner) :
    sizeOf inner.tree < sizeOf s.tree := by
  unfold inner? at h
  split at h
  · exact sizeOf_lt_of_field? h
  · exact sizeOf_lt_of_wrapped? h

/-- The expressions an expression is made from, itself first. -/
def spine (s : Site) : List Site :=
  match _h : s.inner? with
  | some inner => s :: spine inner
  | none => [s]
termination_by sizeOf s.tree
decreasing_by exact sizeOf_lt_of_inner? _h

/-- What an expression starts at. -/
def stem (s : Site) : Site :=
  match _h : s.inner? with
  | some inner => stem inner
  | none => s
termination_by sizeOf s.tree
decreasing_by exact sizeOf_lt_of_inner? _h

/-- The accesses of an expression, innermost first. -/
def accesses (s : Site) : List Site :=
  match _h : s.inner? with
  | some inner => accesses inner ++ if s.kind.isAccess then [s] else []
  | none => []
termination_by sizeOf s.tree
decreasing_by exact sizeOf_lt_of_inner? _h

variable {s inner a c : Site}

theorem spine_of_inner? (h : s.inner? = some inner) : s.spine = s :: inner.spine := by
  rw [spine]
  split <;> simp_all

theorem stem_of_inner? (h : s.inner? = some inner) : s.stem = inner.stem := by
  rw [stem]
  split <;> simp_all

theorem accesses_of_inner? (h : s.inner? = some inner) :
    s.accesses = inner.accesses ++ if s.kind.isAccess then [s] else [] := by
  rw [accesses]
  split <;> simp_all

theorem stem_of_none (h : s.inner? = none) : s.stem = s := by
  rw [stem]
  split <;> simp_all

theorem accesses_of_none (h : s.inner? = none) : s.accesses = [] := by
  rw [accesses]
  split <;> simp_all

theorem self_mem_spine (s : Site) : s ∈ s.spine := by
  rw [spine]
  split <;> exact List.mem_cons_self

theorem wrapped?_of_isAccess (h : s.kind.isAccess = true) : s.wrapped? = none := by
  unfold wrapped?
  revert h
  cases s.kind <;> simp [Kind.isAccess]

theorem inner?_of_wrapped? (h : s.wrapped? = some inner) : s.inner? = some inner := by
  have hkind : ¬ s.kind.isAccess = true := by
    intro hkind
    rw [wrapped?_of_isAccess hkind] at h
    contradiction
  rw [inner?, if_neg hkind, h]

theorem inner?_of_isAccess (h : s.kind.isAccess = true) : s.inner? = s.field? .object :=
  if_pos h

theorem under_of_inner? (h : s.inner? = some inner) : Under s inner := by
  unfold inner? at h
  split at h
  · exact .of_child (mem_children_of_field? h)
  · exact Scope.Visit.under_of_wrapped? h

/-- The accesses of an expression stand in it. -/
theorem under_of_mem_accesses (h : a ∈ s.accesses) : Under s a := by
  fun_induction accesses s with
  | case1 s inner hinner ih =>
      rcases List.mem_append.mp h with h | h
      · exact (under_of_inner? hinner).trans (ih h)
      · split at h
        · rw [List.mem_singleton.mp h]
          exact .self s
        · contradiction
  | case2 => contradiction

/-- Wrapping changes neither the stem of an expression nor its accesses. -/
theorem stem_unwrap (s : Site) : s.unwrap.stem = s.stem ∧ s.unwrap.accesses = s.accesses := by
  fun_induction unwrap s with
  | case1 s inner h ih =>
      have hinner := inner?_of_wrapped? h
      have hkind : ¬ s.kind.isAccess = true := by
        intro hkind
        rw [wrapped?_of_isAccess hkind] at h
        contradiction
      rw [stem_of_inner? hinner, accesses_of_inner? hinner, if_neg hkind, List.append_nil]
      exact ih
  | case2 => exact ⟨rfl, rfl⟩

/-! ### Up -/

/-- A typed cast whose operand stands inside an error node, and not right below the cast. -/
def IsBrokenCast (s : Site) : Prop :=
  ∃ operand, s.castOperand? = some operand ∧
    ∃ d ∈ s.children, d.kind = .error ∧ operand ∈ d.children

/-- One step down leads to a child, or into a broken cast. -/
theorem mem_children_of_inner? (h : s.inner? = some inner) :
    inner ∈ s.children ∨ s.IsBrokenCast ∧ ∃ d : Site, d.kind = .error ∧ inner ∈ d.children := by
  unfold inner? at h
  split at h
  · exact Or.inl (mem_children_of_field? h)
  · rcases Site.mem_of_wrapped? h with hchild | ⟨hcast, d, hd, hkind, hinner⟩
    · exact Or.inl hchild
    · exact Or.inr ⟨⟨inner, hcast, d, hd, hkind, hinner⟩, d, hkind, hinner⟩

theorem inner?_of_castOperand? (h : s.castOperand? = some inner) : s.inner? = some inner :=
  inner?_of_wrapped? (wrapped?_of_castOperand? h)

/-- What a broken cast wraps is no child of it. -/
theorem not_isBrokenCast (h : s.inner? = some inner) (hchild : inner ∈ s.children) :
    ¬ s.IsBrokenCast := by
  rintro ⟨operand, hcast, d, hd, -, hoperand⟩
  rw [inner?_of_castOperand? hcast] at h
  obtain rfl := Option.some.inj h
  exact (Under.self d).ne_of_child hd (eq_of_mem_children hoperand hchild)

/-- What is no typed cast is no broken one. -/
theorem not_isBrokenCast_of_isNone (h : s.castOperand?.isNone = true) : ¬ s.IsBrokenCast := by
  rintro ⟨operand, hcast, -⟩
  rw [hcast] at h
  contradiction

theorem castOperand?_isNone (h : s.inner? = none) : s.castOperand?.isNone = true := by
  cases hcast : s.castOperand? with
  | none => rfl
  | some operand =>
      rw [inner?_of_castOperand? hcast] at h
      contradiction

theorem wraps_of_wrapped? (h : s.wrapped? = some inner) : s.wraps inner = true := by
  simp [wraps, h]

theorem wraps_of_wrapped?_none (h : s.wrapped? = none) (c : Site) : s.wraps c = false := by
  simp [wraps, h]

/-- Climbing out of wrappers goes on from a child that its parent wraps. -/
theorem outermost_of_mem_children (h : c ∈ s.children) :
    c.outermost = if s.wraps c then s.outermost else c := by
  have habove := above_of_mem_children h
  obtain ⟨t, above⟩ := c
  simp only at habove
  subst habove
  rfl

/-- The kind of node an expression stands in, seen through its wrapping. -/
def surround? (s : Site) : Option Kind := s.outermost.parent?.map (·.kind)

theorem surround?_of_wraps (h : c ∈ s.children) (hw : s.wraps c = true) :
    c.surround? = s.surround? := by
  rw [surround?, outermost_of_mem_children h, if_pos hw, surround?]

theorem surround?_of_not_wraps (h : c ∈ s.children) (hw : s.wrapped? = none) :
    c.surround? = some s.kind := by
  rw [surround?, outermost_of_mem_children h, wraps_of_wrapped?_none hw, if_neg Bool.false_ne_true,
    parent?_of_mem_children h]
  rfl

/-- The access, with its wrapping, is the object of another access or stands in an error node. -/
def IsInside (a : Site) : Prop :=
  ∃ kind, a.surround? = some kind ∧ (kind.isAccess = true ∨ kind = .error)

/-- What an expression is made from is surrounded like the expression, or stands inside of it. -/
theorem surround?_of_inner? (h : s.inner? = some inner) :
    inner.surround? = s.surround? ∨ inner.IsInside := by
  rcases mem_children_of_inner? h with hchild | ⟨-, d, hkind, hchild⟩
  · by_cases haccess : s.kind.isAccess = true
    · exact Or.inr ⟨s.kind, surround?_of_not_wraps hchild (wrapped?_of_isAccess haccess),
        Or.inl haccess⟩
    · rw [inner?, if_neg haccess] at h
      exact Or.inl (surround?_of_wraps hchild (wraps_of_wrapped? h))
  · have hwrapped : d.wrapped? = none := by simp [wrapped?, hkind]
    exact Or.inr ⟨_, surround?_of_not_wraps hchild hwrapped, Or.inr hkind⟩

/-- So is every access of it. -/
theorem surround?_of_mem_accesses (h : a ∈ s.accesses) :
    a.surround? = s.surround? ∨ a.IsInside := by
  fun_induction accesses s with
  | case1 s inner hinner ih =>
      rcases List.mem_append.mp h with h | h
      · rcases ih h with heq | hinside
        · unfold IsInside
          rw [heq]
          exact surround?_of_inner? hinner
        · exact Or.inr hinside
      · split at h
        · rw [List.mem_singleton.mp h]
          exact Or.inl rfl
        · contradiction
  | case2 => contradiction

end Site

end HookLint.Syntax

namespace HookLint.Dependency

open HookLint.Syntax HookLint.Dependency.Path

variable {source : String} {s inner a : Site}

/-! ### The accesses of a path -/

/-- The property an access names. -/
def keyOf? (source : String) (a : Site) : Option String :=
  match a.kind with
  | .member => (a.field? .property).map (·.text source)
  | .subscript => a.subscriptKey? source
  | _ => none

/-- An access that a path can be extended by: a plain link, with a key that is not `current`. -/
structure Extends (source : String) (a : Site) : Prop where
  plain : a.field? .optionalChain = none
  key : ∃ key, keyOf? source a = some key ∧ key ≠ "current"

/-- The accesses a climb goes through, innermost first. -/
def takenFrom (source : String) (t : Tree) : List Tree → List Site
  | [] => []
  | p :: above =>
    let parent : Site := ⟨p, above⟩
    let here : Site := ⟨t, p :: above⟩
    if parent.wraps here then takenFrom source p above
    else match accessKey? source parent here with
      | none => []
      | some key =>
        if key = "current" ∨ isAssigned parent = true then []
        else if isCalled parent then [parent]
        else parent :: takenFrom source p above

/-- The accesses that the path of a read goes through, innermost first. -/
def taken (source : String) (s : Site) : List Site := takenFrom source s.tree s.above

theorem keyOf?_of_accessKey? {object : Site} {key : String}
    (h : accessKey? source a object = some key) : keyOf? source a = some key := by
  unfold accessKey? at h
  split at h
  · exact h
  · contradiction

/-- A climb adds the keys of the accesses it goes through. -/
theorem climb_eq_foldl (source : String) (above : List Tree) : ∀ (path : Path) (t : Tree),
    climb source path t above =
      ((takenFrom source t above).filterMap (keyOf? source)).foldl push path := by
  induction above with
  | nil =>
      intro path t
      rfl
  | cons p above ih =>
      intro path t
      rw [climb, takenFrom]
      split
      · exact ih path p
      · cases hkey : accessKey? source ⟨p, above⟩ ⟨t, p :: above⟩ with
        | none => rfl
        | some key =>
            have hkeyOf := keyOf?_of_accessKey? hkey
            dsimp only
            split
            · rfl
            · split
              · simp [hkeyOf]
              · rw [ih, List.filterMap_cons_some hkeyOf, List.foldl_cons]

/-- The path of a read is its name and the keys of the accesses it goes through. -/
theorem pathAt_eq (source : String) (s : Site) :
    pathAt source s = ofKeys (s.text source) ((taken source s).filterMap (keyOf? source)) :=
  climb_eq_foldl source s.above ⟨s.text source⟩ s.tree

theorem taken_of_mem_children {c : Site} (h : c ∈ s.children) :
    taken source c =
      if s.wraps c then taken source s
      else match accessKey? source s c with
        | none => []
        | some key =>
          if key = "current" ∨ isAssigned s = true then []
          else if isCalled s then [s]
          else s :: taken source s := by
  have habove := Site.above_of_mem_children h
  obtain ⟨t, above⟩ := c
  simp only at habove
  subst habove
  rfl

/-- A climb passes a wrapper. -/
theorem taken_of_wraps {c : Site} (h : c ∈ s.children) (hw : s.wraps c = true) :
    taken source c = taken source s := by
  rw [taken_of_mem_children h, if_pos hw]

/-- A climb ends at what neither wraps nor accesses. -/
theorem taken_of_other {c : Site} (h : c ∈ s.children) (hw : s.wrapped? = none)
    (hkind : s.kind.isAccess = false) : taken source c = [] := by
  have hkey : accessKey? source s c = none := by
    unfold accessKey?
    split
    · revert hkind
      cases s.kind <;> simp [Kind.isAccess]
    · rfl
  rw [taken_of_mem_children h, Site.wraps_of_wrapped?_none hw, if_neg Bool.false_ne_true, hkey]

theorem accessKey?_of_object {object : Site} (h : s.field? .object = some object) :
    accessKey? source s object =
      if (s.field? .optionalChain).isNone then keyOf? source s else none := by
  have hfield : s.isField .object object = true := by simp [Site.isField, h]
  rw [accessKey?, hfield, Bool.true_and]
  rfl

/-- A climb takes an access that extends the path, unless it is assigned. -/
theorem taken_of_object {object : Site} (haccess : s.kind.isAccess = true)
    (h : s.field? .object = some object) (hextends : Extends source s)
    (hassigned : isAssigned s = false) :
    taken source object = s :: if isCalled s then [] else taken source s := by
  obtain ⟨hplain, key, hkey, hcurrent⟩ := hextends
  rw [taken_of_mem_children (Site.mem_children_of_field? h),
    Site.wraps_of_wrapped?_none (Site.wrapped?_of_isAccess haccess), if_neg Bool.false_ne_true,
    accessKey?_of_object h, hplain, Option.isNone_none, if_pos rfl, hkey]
  dsimp only
  rw [if_neg (by simp [hcurrent, hassigned])]
  split <;> rfl

/-- Any other access ends it. -/
theorem taken_of_object_eq_nil {object : Site} (haccess : s.kind.isAccess = true)
    (h : s.field? .object = some object) (hstop : ¬ (Extends source s ∧ isAssigned s = false)) :
    taken source object = [] := by
  rw [taken_of_mem_children (Site.mem_children_of_field? h),
    Site.wraps_of_wrapped?_none (Site.wrapped?_of_isAccess haccess), if_neg Bool.false_ne_true,
    accessKey?_of_object h]
  split
  · rfl
  · rename_i key hkey
    split at hkey
    · rename_i hplain
      split
      · rfl
      · rename_i hgoes
        rw [not_or] at hgoes
        refine absurd ⟨⟨Option.isNone_iff_eq_none.mp hplain, key, hkey, hgoes.1⟩, ?_⟩ hstop
        simpa using hgoes.2
    · contradiction

/-! ### From the stem to the whole -/

/-- Every link of an expression can be climbed: no cast is broken, and every access extends a
path. -/
structure Climbable (source : String) (s : Site) : Prop where
  casts : ∀ x ∈ s.spine, ¬ x.IsBrokenCast
  accesses : ∀ a ∈ s.accesses, Extends source a

/-- An access that is neither called nor assigned. -/
def IsIdle (a : Site) : Prop := isAssigned a = false ∧ isCalled a = false

/-- The kinds of node that call or assign an access. -/
def usesAccess : Kind → Bool
  | .call | .assignment | .augmentedAssignment | .update => true
  | _ => false

/-- What surrounds an access says whether it is called or assigned. -/
theorem isIdle_of_surround? (h : ∀ kind ∈ a.surround?, usesAccess kind = false) : IsIdle a := by
  unfold Site.surround? at h
  unfold IsIdle isAssigned isCalled
  dsimp only
  cases hparent : a.outermost.parent? with
  | none => exact ⟨rfl, rfl⟩
  | some p =>
      have hkind : usesAccess p.kind = false := h p.kind (by rw [hparent]; rfl)
      simp only [Option.any_some]
      revert hkind
      cases p.kind <;> simp [usesAccess]

theorem usesAccess_of_isAccess {kind : Kind} (h : kind.isAccess = true) :
    usesAccess kind = false := by
  revert h
  cases kind <;> simp [Kind.isAccess, usesAccess]

theorem isIdle_of_isInside (h : a.IsInside) : IsIdle a := by
  obtain ⟨kind, hkind, hinside⟩ := h
  refine isIdle_of_surround? fun kind' hkind' => ?_
  obtain rfl : kind = kind' := Option.some.inj (hkind.symm.trans hkind')
  rcases hinside with haccess | rfl
  · exact usesAccess_of_isAccess haccess
  · rfl

/-- Where the node around an expression neither wraps nor uses it, its accesses are idle. -/
theorem isIdle_of_mem_accesses {p : Site} (hs : s ∈ p.children) (hwrapped : p.wrapped? = none)
    (huses : usesAccess p.kind = false) (ha : a ∈ s.accesses) : IsIdle a := by
  rcases Site.surround?_of_mem_accesses ha with heq | hinside
  · refine isIdle_of_surround? fun kind hkind => ?_
    rw [heq, Site.surround?_of_not_wraps hs hwrapped] at hkind
    rw [← Option.some.inj hkind]
    exact huses
  · exact isIdle_of_isInside hinside

/-- A climb from the stem of an expression takes its accesses and goes on from the expression, or
it ends on the way. -/
theorem taken_stem (source : String) (s : Site) (hidle : ∀ a ∈ s.accesses, IsIdle a) :
    (Climbable source s ∧ taken source s.stem = s.accesses ++ taken source s) ∨
      (¬ Climbable source s ∧ taken source s.stem <+: s.accesses) := by
  fun_induction Site.stem s with
  | case1 s inner hinner ih =>
      have haccesses := Site.accesses_of_inner? hinner
      have hfirst : inner.accesses <+: s.accesses := haccesses ▸ List.prefix_append _ _
      have hdown : Climbable source s → Climbable source inner := by
        rintro ⟨hcasts, hextends⟩
        refine ⟨fun x hx => hcasts x ?_, fun a ha => hextends a (hfirst.subset ha)⟩
        rw [Site.spine_of_inner? hinner]
        exact List.mem_cons_of_mem _ hx
      rcases ih fun a ha => hidle a (hfirst.subset ha) with ⟨hclimb, htaken⟩ | ⟨hstop, htaken⟩
      · -- The climb has come as far as to the inner expression: what does the next step do?
        rw [htaken]
        rcases Site.mem_children_of_inner? hinner with hchild | ⟨hbroken, d, hkind, hchild⟩
        · have hcasts : ∀ x ∈ s.spine, ¬ x.IsBrokenCast := by
            rw [Site.spine_of_inner? hinner]
            exact List.forall_mem_cons.mpr ⟨Site.not_isBrokenCast hinner hchild, hclimb.casts⟩
          by_cases haccess : s.kind.isAccess = true
          · rw [if_pos haccess] at haccesses
            have hself : s ∈ s.accesses :=
              haccesses ▸ List.mem_append_right _ (List.mem_singleton_self s)
            rw [Site.inner?_of_isAccess haccess] at hinner
            obtain ⟨hassigned, hcalled⟩ := hidle s hself
            by_cases hextends : Extends source s
            · refine Or.inl ⟨⟨hcasts, ?_⟩, ?_⟩
              · rw [haccesses]
                exact List.forall_mem_append.mpr ⟨hclimb.accesses, by simpa using hextends⟩
              · rw [taken_of_object haccess hinner hextends hassigned, haccesses, hcalled,
                  if_neg Bool.false_ne_true, List.append_assoc, List.singleton_append]
            · refine Or.inr ⟨fun h => hextends (h.accesses s hself), ?_⟩
              rw [taken_of_object_eq_nil haccess hinner fun h => hextends h.1, List.append_nil]
              exact hfirst
          · rw [if_neg haccess, List.append_nil] at haccesses
            rw [Site.inner?, if_neg haccess] at hinner
            refine Or.inl ⟨⟨hcasts, haccesses ▸ hclimb.accesses⟩, ?_⟩
            rw [taken_of_wraps hchild (Site.wraps_of_wrapped? hinner), haccesses]
        · refine Or.inr ⟨fun h => h.casts s (Site.self_mem_spine s) hbroken, ?_⟩
          have hnone : d.wrapped? = none := by simp [Site.wrapped?, hkind]
          rw [taken_of_other hchild hnone (by rw [hkind]; rfl), List.append_nil]
          exact hfirst
      · exact Or.inr ⟨fun h => hstop (hdown h), htaken.trans hfirst⟩
  | case2 s hnone =>
      have haccesses := Site.accesses_of_none hnone
      refine Or.inl ⟨⟨?_, by simp [haccesses]⟩, by rw [haccesses, List.nil_append]⟩
      rw [Site.spine]
      split
      · simp_all
      · simpa using Site.not_isBrokenCast_of_isNone (Site.castOperand?_isNone hnone)

/-! ### Entries and reads -/

/-- An entry spells the name it starts at and the keys of its accesses, all of which have one. -/
theorem Spells.eq_accesses {path : Path} {ident : Site} (h : Spells source s path ident) :
    s.stem = ident ∧
      path = ofKeys (ident.text source) (s.accesses.filterMap (keyOf? source)) ∧
      ∀ a ∈ s.accesses, ∃ key, keyOf? source a = some key := by
  -- One more access around the object.
  have haccess : ∀ {s object ident : Site} {path : Path} {key : String},
      s.unwrap.kind.isAccess = true → s.unwrap.field? .object = some object →
      keyOf? source s.unwrap = some key →
      (object.stem = ident ∧
        path = ofKeys (ident.text source) (object.accesses.filterMap (keyOf? source)) ∧
        ∀ a ∈ object.accesses, ∃ key, keyOf? source a = some key) →
      s.stem = ident ∧
        path.push key = ofKeys (ident.text source) (s.accesses.filterMap (keyOf? source)) ∧
        ∀ a ∈ s.accesses, ∃ key, keyOf? source a = some key := by
    rintro s object ident path key haccess hobject hkey ⟨hstem, hpath, hkeys⟩
    have hinner : s.unwrap.inner? = some object := (Site.inner?_of_isAccess haccess).trans hobject
    obtain ⟨hunwrap, haccesses⟩ := s.stem_unwrap
    rw [← hunwrap, ← haccesses, Site.stem_of_inner? hinner, Site.accesses_of_inner? hinner,
      if_pos haccess]
    refine ⟨hstem, ?_, ?_⟩
    · rw [List.filterMap_append, List.filterMap_cons_some hkey, List.filterMap_nil, ofKeys_concat,
        ← hpath]
    · exact List.forall_mem_append.mpr ⟨hkeys, by simp [hkey]⟩
  induction h with
  | @name s hkind =>
      have hnone : s.unwrap.inner? = none := by
        simp [Site.inner?, hkind, Kind.isAccess, Site.wrapped?]
      obtain ⟨hunwrap, haccesses⟩ := s.stem_unwrap
      rw [← hunwrap, ← haccesses, Site.stem_of_none hnone, Site.accesses_of_none hnone]
      exact ⟨rfl, rfl, by simp⟩
  | member hkind hobject _ hproperty ih =>
      exact haccess (by rw [hkind]; rfl) hobject (by simp [keyOf?, hkind, hproperty]) ih
  | subscript hkind hobject _ hkey ih =>
      exact haccess (by rw [hkind]; rfl) hobject (by simp [keyOf?, hkind, hkey]) ih

/-- Reading a path and declaring it agree.  The path read at the identifier that an entry of an
array starts at covers the path of the entry.  The two are the same when no link of the entry is
optional, no key is `current`, and no typed cast has its operand inside an error node. -/
theorem read_matches_entry {array entry ident : Site} {path : Path} (harray : array.kind = .array)
    (hentry : entry ∈ array.children) (hspelled : spelledPath? source entry = some (path, ident)) :
    (pathAt source ident).covers path = true ∧
    ((∀ a ∈ entry.accesses, a.field? .optionalChain = none) →
      (∀ a ∈ entry.accesses, keyOf? source a ≠ some "current") →
      (∀ x ∈ entry.spine, ¬ x.IsBrokenCast) → pathAt source ident = path) := by
  obtain ⟨hstem, hpath, hkeys⟩ := (spells_of_spelledPath? hspelled).eq_accesses
  -- Nothing in an array literal is called or assigned there, and a climb ends at the array.
  have hwrapped : array.wrapped? = none := by simp [Site.wrapped?, harray]
  have htaken := taken_stem source entry fun a ha =>
    isIdle_of_mem_accesses hentry hwrapped (by rw [harray]; rfl) ha
  rw [taken_of_other hentry hwrapped (by rw [harray]; rfl), List.append_nil, hstem] at htaken
  rw [pathAt_eq, hpath]
  have hfirst : taken source ident <+: entry.accesses := by
    rcases htaken with ⟨-, heq⟩ | ⟨-, hfirst⟩
    · exact heq ▸ List.prefix_refl _
    · exact hfirst
  refine ⟨covers_ofKeys_of_isPrefix (hfirst.filterMap _), ?_⟩
  · intro hplain hcurrent hcasts
    have hclimb : Climbable source entry := by
      refine ⟨hcasts, fun a ha => ⟨hplain a ha, ?_⟩⟩
      obtain ⟨key, hkey⟩ := hkeys a ha
      exact ⟨key, hkey, fun h => hcurrent a ha (h ▸ hkey)⟩
    rcases htaken with ⟨-, heq⟩ | ⟨hstop, -⟩
    · rw [heq]
    · exact absurd hclimb hstop

/-- The tree of the array literal `[(x!).a["b"]]`. -/
def wrappedArray : Site := .root <|
  .node ⟨0, "array", .array, true, false, [], 0, 13⟩
    [.node ⟨1, "subscript_expression", .subscript, true, false, [], 1, 12⟩
      [.node ⟨2, "member_expression", .member, true, false, [.object], 1, 7⟩
        [.node ⟨3, "parenthesized_expression", .parenthesized, true, false, [.object], 1, 5⟩
          [.node ⟨4, "non_null_expression", .assertion, true, false, [], 2, 4⟩
            [.node ⟨5, "identifier", .identifier, true, false, [], 2, 3⟩ []]],
        .node ⟨6, "property_identifier", .other, true, false, [.property], 6, 7⟩ []],
      .node ⟨7, "string", .string, true, false, [.index], 8, 11⟩ []]]

theorem read_matches_entry_wrapped :
    ∃ entry ∈ wrappedArray.children, ∃ ident,
      spelledPath? "[(x!).a[\"b\"]]" entry = some (⟨"x.a.b"⟩, ident) ∧
      (pathAt "[(x!).a[\"b\"]]" ident).covers ⟨"x.a.b"⟩ = true ∧
      pathAt "[(x!).a[\"b\"]]" ident = ⟨"x.a.b"⟩ := by
  have hentry : wrappedArray.children.headD default ∈ wrappedArray.children := List.mem_cons_self
  have hpath : (spelledPath? "[(x!).a[\"b\"]]" (wrappedArray.children.headD default)).map (·.1) =
      some ⟨"x.a.b"⟩ := by decide +kernel
  obtain ⟨⟨path, ident⟩, hspelled, rfl⟩ := Option.map_eq_some_iff.mp hpath
  obtain ⟨hcovers, hsame⟩ := read_matches_entry rfl hentry hspelled
  have hplain : ∀ a ∈ (wrappedArray.children.headD default).accesses,
      (a.field? .optionalChain).isNone = true := by decide +kernel
  have hcasts : ∀ x ∈ (wrappedArray.children.headD default).spine,
      x.castOperand?.isNone = true := by decide +kernel
  refine ⟨_, hentry, ident, hspelled, hcovers, hsame ?_ (by decide +kernel) ?_⟩
  · exact fun a ha => Option.isNone_iff_eq_none.mp (hplain a ha)
  · exact fun x hx => Site.not_isBrokenCast_of_isNone (hcasts x hx)

end HookLint.Dependency
